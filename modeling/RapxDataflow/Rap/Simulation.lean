import RapxDataflow.Rap
import RapxDataflow.Graph.Seq

namespace RapxDataflow

-- A rapx op as the rap builder would have written it; rap has no constant nodes and no
-- `CallOperand`, and its `Aggregate` forgets the kind.
def NodeOp.toRap : NodeOp → Option Rap.NodeOp
  | .nop => some .nop
  | .err => some .err
  | .const _ => none
  | .use => some .use
  | .repeat => some .repeat
  | .ref => some .ref
  | .threadLocalRef => some .threadLocalRef
  | .addressOf => some .addressOf
  | .len => some .len
  | .cast => some .cast
  | .binaryOp => some .binaryOp
  | .checkedBinaryOp => some .checkedBinaryOp
  | .nullaryOp => some .nullaryOp
  | .unaryOp => some .unaryOp
  | .discriminant => some .discriminant
  | .aggregate _ => some .aggregate
  | .shallowInitBox => some .shallowInitBox
  | .copyForDeref => some .copyForDeref
  | .call defId => some (.call defId)
  | .callOperand => none

def Rap.EdgeOp.toRapx : Rap.EdgeOp → RapxDataflow.EdgeOp
  | .move => .move
  | .copy => .copy
  | .const => .const

-- The instructions both builders translate: projection-free operands; an assignment to a
-- projection-free place of a use, an overflow-checked binary op, or an array, tuple, ADT or
-- closure aggregate; a call through a `Const::Val` function item; anything else that neither
-- builder looks at.
def Operand.inRapFragment : Operand → Bool
  | .copy place | .move place => place.projection.isEmpty
  | .constant _ => true

def Rvalue.inRapFragment : Rvalue → Bool
  | .use operand => operand.inRapFragment
  | .binaryOp op lhs rhs => op.isWithOverflow && lhs.inRapFragment && rhs.inRapFragment
  | .aggregate kind operands => (Graph.aggKind kind).isSome && operands.all (·.inRapFragment)
  | _ => false

def Instr.inRapFragment : Instr → Bool
  | .statement ⟨.assign place rvalue, _⟩ => place.projection.isEmpty && rvalue.inRapFragment
  | .statement ⟨.other, _⟩ => true
  | .terminator ⟨.call (.constant (.val ty _)) args _, _⟩ =>
    (match ty.kind with
      | .fnDef _ => true
      | .other => false) && args.all (·.inRapFragment)
  | .terminator ⟨.call _ _ _, _⟩ => false
  | .terminator ⟨.other, _⟩ => true

namespace Graph

-- A rap edge and the rapx edge at the same position: a node edge with the same ends and op,
-- or a constant edge into the same node whose rapx source is a constant node past the first
-- `n` that holds the rap edge's text.
def EdgeMatch (n : Nat) (G : Graph) (ge : GraphEdge) : Rap.GraphEdge → Prop
  | .nodeEdge src dst op => ge.src = src ∧ ge.dst = dst ∧ ge.op = op.toRapx
  | .constEdge s dst op =>
    ge.dst = dst ∧ ge.op = op.toRapx ∧ n ≤ ge.src ∧ G.nodes[ge.src]?.map (·.op) = some (.const s)

-- The simulation between a rapx graph `G` and a rap graph `R` over `n` locals: the edge lists
-- agree position by position, the first `n` nodes carry the same ops, and every rapx node past
-- them is the source of a constant edge.
structure Sim (n : Nat) (G : Graph) (R : Rap.Graph) : Prop where
  edges : List.Forall₂ (EdgeMatch n G) G.edges R.edges
  rap_length : R.nodes.length = n
  le_length : n ≤ G.nodes.length
  ops : ∀ v < n, G.nodes[v]?.map (·.op.toRap) = R.nodes[v]?.map fun x => some x.op
  extra : ∀ v, n ≤ v → v < G.nodes.length → ∃ (i : Nat) (s : String) (dst : Local),
    R.edges[i]? = some (.constEdge s dst .const) ∧ G.edges[i]?.map (·.src) = some v

-- Both computations succeed, in simulating graphs.
def SimOk (n : Nat) (x : Except Fault Graph) (y : Except Fault Rap.Graph) : Prop :=
  ∃ G R, x = .ok G ∧ y = .ok R ∧ Sim n G R

section Sim

variable {n : Nat} {G G' : Graph} {R : Rap.Graph} {i : Local}

theorem EdgeMatch.mono {ge : GraphEdge} {re : Rap.GraphEdge} (hm : EdgeMatch n G ge re)
    (h : ∀ v, n ≤ v → ∀ o, G.nodes[v]?.map (·.op) = some o → G'.nodes[v]?.map (·.op) = some o) :
    EdgeMatch n G' ge re := by
  cases re with
  | nodeEdge => exact hm
  | constEdge s dst op =>
    obtain ⟨h₁, h₂, h₃, h₄⟩ := hm
    exact ⟨h₁, h₂, h₃, h _ h₃ _ h₄⟩

theorem Sim.edges_length (hs : Sim n G R) : G.edges.length = R.edges.length :=
  hs.edges.length_eq

-- One write to node `i < n` on each side, with ops that still correspond.
theorem Sim.modifyBoth (hs : Sim n G R) (hi : i < n) (f : GraphNode → GraphNode)
    (rf : Rap.GraphNode → Rap.GraphNode)
    (hf : ∀ gx rx, gx.op.toRap = some rx.op → (f gx).op.toRap = some (rf rx).op) :
    Sim n { G with nodes := G.nodes.modify f i } { R with nodes := R.nodes.modify rf i } := by
  refine ⟨hs.edges.imp fun _ _ hm => hm.mono fun v hv o ho => ?edge, by simp [hs.rap_length],
    by simpa using hs.le_length, fun v hv => ?ops, fun v h₁ h₂ => hs.extra v h₁ (by simpa using h₂)⟩
  case edge => rwa [List.getElem?_modify_ne _ _ (Nat.ne_of_lt (hi.trans_le hv))]
  case ops =>
    by_cases hiv : i = v
    · subst hiv
      have hg := hs.ops i hv
      have hgx := List.getElem?_eq_getElem (hi.trans_le hs.le_length)
      have hrx := List.getElem?_eq_getElem (hs.rap_length ▸ hi : i < R.nodes.length)
      rw [hgx, hrx, Option.map_some', Option.map_some', Option.some.injEq] at hg
      simp [List.getElem?_modify_eq, hgx, hrx, hf _ _ hg]
    · rw [List.getElem?_modify_ne _ _ hiv, List.getElem?_modify_ne _ _ hiv]
      exact hs.ops v hv

-- A rapx-only write that keeps the node's op: a span or a `seq`.
theorem Sim.modifyLeft (hs : Sim n G R) {f : GraphNode → GraphNode} (hf : ∀ x, (f x).op = x.op) :
    Sim n { G with nodes := G.nodes.modify f i } R := by
  refine ⟨hs.edges.imp fun _ _ hm => hm.mono fun v _ o ho => ?edge, hs.rap_length,
    by simpa using hs.le_length, fun v hv => ?ops, fun v h₁ h₂ => hs.extra v h₁ (by simpa using h₂)⟩
  case edge => rwa [map_modify (·.op) f hf]
  case ops => rw [map_modify (·.op.toRap) f fun x => congrArg NodeOp.toRap (hf x), hs.ops v hv]

-- The constant edge behind an extra rapx node stays where it is when both edge lists grow.
theorem Sim.extra_append (hs : Sim n G R) (ges : List GraphEdge) (res : List Rap.GraphEdge) {v : Nat}
    (h₁ : n ≤ v) (h₂ : v < G.nodes.length) : ∃ (i : Nat) (s : String) (dst : Local),
      (R.edges ++ res)[i]? = some (.constEdge s dst .const) ∧ (G.edges ++ ges)[i]?.map (·.src) = some v := by
  obtain ⟨i, s, dst, hr, hg⟩ := hs.extra v h₁ h₂
  have hi := (List.getElem?_eq_some_iff.mp hr).1
  exact ⟨i, s, dst, by rwa [List.getElem?_append_left hi],
    by rwa [List.getElem?_append_left (hs.edges_length ▸ hi)]⟩

theorem Sim.pushEdge (hs : Sim n G R) {ge : GraphEdge} {re : Rap.GraphEdge}
    (hm : EdgeMatch n G ge re) :
    Sim n { G with edges := G.edges ++ [ge] } { R with edges := R.edges ++ [re] } :=
  ⟨List.rel_append hs.edges (.cons hm .nil), hs.rap_length, hs.le_length, hs.ops,
    fun _ h₁ h₂ => hs.extra_append [ge] [re] h₁ h₂⟩

-- `add_const_edge` on both sides, before the destination's `in_edges` write: rapx pushes the
-- constant node and an edge from it, rap an edge that holds the text.
theorem Sim.pushConst (hs : Sim n G R) (dst : Local) (text : String)
    (seq : UInt32) :
    Sim n { G with
        nodes := G.nodes ++ [{ GraphNode.new with op := .const text }]
        edges := G.edges ++ [⟨G.nodes.length, dst, .const, seq⟩] }
      { R with edges := R.edges ++ [.constEdge text dst .const] } := by
  have hold : ∀ v, v < G.nodes.length →
      (G.nodes ++ [{ GraphNode.new with op := .const text }])[v]? = G.nodes[v]? :=
    fun v hv => List.getElem?_append_left hv
  refine ⟨List.rel_append (hs.edges.imp fun _ _ hm => hm.mono fun v _ o ho => ?edge)
      (.cons ⟨rfl, rfl, hs.le_length, by simp⟩ .nil), hs.rap_length,
    by simpa using hs.le_length.trans (Nat.le_succ _), fun v hv => ?ops, fun v h₁ h₂ => ?extra⟩
  case edge =>
    obtain ⟨node, hnode, -⟩ := Option.map_eq_some'.mp ho
    rwa [hold v (List.getElem?_eq_some_iff.mp hnode).1]
  case ops => rw [hold v (hv.trans_le hs.le_length), hs.ops v hv]
  case extra =>
    rcases Nat.lt_or_ge v G.nodes.length with hv | hv
    · exact hs.extra_append _ _ h₁ hv
    · obtain rfl : v = G.nodes.length := by simp at h₂; omega
      refine ⟨R.edges.length, text, dst, by simp, ?_⟩
      rw [← hs.edges_length]
      simp

end Sim

section Steps

variable {n : Nat} {G : Graph} {R : Rap.Graph} {x : Except Fault Graph}
  {y : Except Fault Rap.Graph}

theorem SimOk.bind {f : Graph → Except Fault Graph} {k : Rap.Graph → Except Fault Rap.Graph}
    (h : SimOk n x y) (hk : ∀ G R, Sim n G R → SimOk n (f G) (k R)) : SimOk n (x >>= f) (y >>= k) := by
  obtain ⟨G, R, rfl, rfl, hs⟩ := h
  exact hk G R hs

-- A rapx step with no rap counterpart, after the shared ones.
theorem SimOk.bind_left {f : Graph → Except Fault Graph} (h : SimOk n x y)
    (hk : ∀ G R, Sim n G R → SimOk n (f G) (pure R)) : SimOk n (x >>= f) y := by
  obtain ⟨G, R, rfl, rfl, hs⟩ := h
  obtain ⟨G', R', h₁, h₂, hs'⟩ := hk G R hs
  cases h₂
  exact ⟨G', R, h₁, rfl, hs'⟩

theorem Sim.modifyNode_left (hs : Sim n G R) {i : Local} (hi : i < n) {f : GraphNode → GraphNode}
    (hf : ∀ x, (f x).op = x.op) : SimOk n (G.modifyNode i f) (pure R) :=
  ⟨_, R, modifyNode_of_lt (hi.trans_le hs.le_length), rfl, hs.modifyLeft hf⟩

theorem Sim.setOp (hs : Sim n G R) {dst : Local} (hdst : dst < n) {o : NodeOp} {ro : Rap.NodeOp}
    (ho : o.toRap = some ro) : SimOk n (G.setOp dst o) (R.setOp dst ro) :=
  ⟨_, _, modifyNode_of_lt (hdst.trans_le hs.le_length),
    Rap.Graph.modifyNode_of_lt (hs.rap_length ▸ hdst), hs.modifyBoth hdst _ _ fun _ _ _ => ho⟩

theorem Sim.linkNode (hs : Sim n G R) {src dst : Local} (hsrc : src < n) (hdst : dst < n)
    (op : Rap.EdgeOp) :
    SimOk n (Prod.fst <$> G.addNodeEdge src dst op.toRapx) (Prod.fst <$> R.addNodeEdge src dst op) := by
  obtain ⟨⟨G', e⟩, hG⟩ := addNodeEdge_ok op.toRapx (hsrc.trans_le hs.le_length)
    (hdst.trans_le hs.le_length)
  obtain ⟨node, -, -, -, rfl⟩ := addNodeEdge_spec hG
  rw [hG, Rap.Graph.addNodeEdge_of_lt (hs.rap_length ▸ hsrc) (hs.rap_length ▸ hdst)]
  have hm : EdgeMatch n G ⟨src, dst, op.toRapx, node.seq⟩ (.nodeEdge src dst op) := ⟨rfl, rfl, rfl⟩
  exact ⟨_, _, rfl, rfl, ((hs.pushEdge hm).modifyBoth hdst (·.pushInEdge G.edges.length)
    (fun x => { x with inEdges := x.inEdges ++ [R.edges.length] }) fun _ _ h => h).modifyBoth hsrc
    (·.pushOutEdge G.edges.length) (fun x => { x with outEdges := x.outEdges ++ [R.edges.length] })
    fun _ _ h => h⟩

theorem Sim.constEdge (hs : Sim n G R) {dst : Local} (hdst : dst < n) (text : String) :
    SimOk n (Prod.fst <$> G.addConstEdge text dst .const)
      (Prod.fst <$> R.addConstEdge text dst .const) := by
  obtain ⟨⟨G', e⟩, hG⟩ := addConstEdge_ok text .const (hdst.trans_le hs.le_length)
  obtain ⟨node, -, -, rfl⟩ := addConstEdge_spec hG
  rw [hG, Rap.Graph.addConstEdge_of_lt (hs.rap_length ▸ hdst)]
  exact ⟨_, _, rfl, rfl, (hs.pushConst dst text node.seq).modifyBoth hdst
    (·.pushInEdge G.edges.length) (fun x => { x with inEdges := x.inEdges ++ [R.edges.length] })
    fun _ _ h => h⟩

theorem Sim.addOperand (hs : Sim n G R) {operand : Operand} (hop : operand.inRapFragment)
    (hl : operand.localsBelow n) {dst : Local} (hdst : dst < n) :
    SimOk n (G.addOperand operand dst) (R.addOperand operand dst) := by
  cases operand with
  | copy place | move place =>
    obtain ⟨«local», projection⟩ := place
    simp only [Operand.inRapFragment, List.isEmpty_iff] at hop
    subst hop
    simp only [Operand.localsBelow, Place.localsBelow, List.all_nil, Bool.and_true,
      decide_eq_true_eq] at hl
    first
      | exact hs.linkNode hl hdst .copy
      | exact hs.linkNode hl hdst .move
  | constant const => exact hs.constEdge hdst const.text

theorem Sim.addOperands (hs : Sim n G R) {operands : List Operand}
    (hop : operands.all (·.inRapFragment)) (hl : operands.all (·.localsBelow n)) {dst : Local}
    (hdst : dst < n) : SimOk n (G.addOperands dst operands) (R.addOperands dst operands) := by
  induction operands generalizing G R with
  | nil => exact ⟨G, R, rfl, rfl, hs⟩
  | cons operand rest ih =>
    simp only [List.all_cons, Bool.and_eq_true] at hop hl
    exact (hs.addOperand hop.1 hl.1 hdst).bind fun _ _ hs₁ => ih hs₁ hop.2 hl.2

-- A rapx step with no rap counterpart, before the shared ones.
theorem SimOk.left_bind {f : Graph → Except Fault Graph} (h : SimOk n x (pure R))
    (hk : ∀ G, Sim n G R → SimOk n (f G) y) : SimOk n (x >>= f) y := by
  obtain ⟨G, R', rfl, hR, hs⟩ := h
  cases hR
  exact hk G hs

-- The right-hand sides of `add_statm_to_graph` in both builders; rap reads only the local of
-- the assigned place.
theorem Sim.addRvalue (hs : Sim n G R) (place : Place) {rvalue : Rvalue} (hin : rvalue.inRapFragment)
    (hl : rvalue.localsBelow n) (hdst : place.local < n) :
    SimOk n (G.addRvalue rvalue place.local) (R.addStatmToGraph (.assign place rvalue)) := by
  cases rvalue <;> simp only [Rvalue.inRapFragment, Bool.false_eq_true] at hin
  case use operand =>
    exact (hs.addOperand hin hl hdst).bind fun _ _ hs₁ => hs₁.setOp hdst rfl
  case binaryOp op lhs rhs =>
    simp only [Bool.and_eq_true] at hin
    simp only [Rvalue.localsBelow, Bool.and_eq_true] at hl
    simp only [Graph.addRvalue, Rap.Graph.addStatmToGraph, hin.1.1, if_true]
    exact (hs.addOperand hin.1.2 hl.1 hdst).bind fun _ _ hs₁ =>
      (hs₁.addOperand hin.2 hl.2 hdst).bind fun _ _ hs₂ => hs₂.setOp hdst rfl
  case aggregate kind operands =>
    simp only [Bool.and_eq_true, Option.isSome_iff_exists] at hin
    obtain ⟨⟨k, hk⟩, hops⟩ := hin
    simp only [Graph.addRvalue, Rap.Graph.addStatmToGraph, hk]
    exact (hs.addOperands hops hl hdst).bind fun _ _ hs₁ => hs₁.setOp hdst rfl

theorem Sim.addStatmToGraph (hs : Sim n G R) {statement : Statement}
    (hin : (Instr.statement statement).inRapFragment)
    (hl : (Instr.statement statement).localsBelow n) :
    SimOk n (G.addStatmToGraph statement) (R.addStatmToGraph statement.kind) := by
  obtain ⟨kind, span⟩ := statement
  cases kind with
  | other => exact ⟨G, R, rfl, rfl, hs⟩
  | assign place rvalue =>
    obtain ⟨d, projection⟩ := place
    simp only [Instr.inRapFragment, Bool.and_eq_true, List.isEmpty_iff] at hin
    obtain ⟨rfl, hin⟩ := hin
    simp only [Instr.localsBelow, Place.localsBelow, List.all_nil, Bool.and_true,
      Bool.and_eq_true, decide_eq_true_eq] at hl
    exact (hs.modifyNode_left hl.1 fun _ => by rfl).left_bind fun _ hs₁ =>
      (hs₁.addRvalue ⟨d, []⟩ hin hl.2 hl.1).bind_left fun _ _ hs₂ =>
        hs₂.modifyNode_left hl.1 fun _ => by rfl

theorem Sim.addTerminatorToGraph (hs : Sim n G R) {terminator : Terminator}
    (hin : (Instr.terminator terminator).inRapFragment)
    (hl : (Instr.terminator terminator).localsBelow n) :
    SimOk n (G.addTerminatorToGraph terminator) (R.addTerminatorToGraph terminator.kind) := by
  obtain ⟨kind, span⟩ := terminator
  cases kind with
  | other => exact ⟨G, R, rfl, rfl, hs⟩
  | call func args destination =>
    simp only [Instr.localsBelow, Bool.and_eq_true, Place.localsBelow, decide_eq_true_eq] at hl
    match func, hin with
    | .constant (.val ty text), hin =>
      cases hk : ty.kind with
      | fnDef defId =>
        simp only [Instr.inRapFragment, hk, Bool.true_and] at hin
        simp only [Graph.addTerminatorToGraph, Graph.addCall, Rap.Graph.addTerminatorToGraph, hk]
        exact ((hs.addOperands hin hl.1.2 hl.2.1).bind fun _ _ hs₁ => hs₁.setOp hl.2.1 (by rfl)).bind_left
          fun _ _ hs₂ => (hs₂.modifyNode_left hl.2.1 fun _ => by rfl).left_bind fun _ hs₃ =>
            hs₃.modifyNode_left hl.2.1 fun _ => by rfl
      | other => simp [Instr.inRapFragment, hk] at hin

theorem Sim.translate (hs : Sim n G R) {instrs : List Instr}
    (hin : ∀ instr ∈ instrs, instr.inRapFragment) (hl : ∀ instr ∈ instrs, instr.localsBelow n) :
    SimOk n (G.translate instrs) (R.translate instrs) := by
  induction instrs generalizing G R with
  | nil => exact ⟨G, R, rfl, rfl, hs⟩
  | cons instr rest ih =>
    rw [List.forall_mem_cons] at hin hl
    have hstep : SimOk n (G.addInstr instr) (R.addInstr instr) := by
      cases instr with
      | statement statement => exact hs.addStatmToGraph hin.1 hl.1
      | terminator terminator => exact hs.addTerminatorToGraph hin.1 hl.1
    exact hstep.bind fun _ _ hs₁ => ih hs₁ hin.2 hl.2

end Steps

end Graph

end RapxDataflow
