import RapxDataflow.Graph.Seq

namespace RapxDataflow

-- `CallGraphVisitor` of `rap/src/analysis/core/call_graph/call_graph_visitor.rs`, as the
-- sequence of callee ids that `visit` hands to `add_to_call_graph`. `CallGraphInfo`, whose
-- source is not in the repository, and the `def_path_str` keys it files them under are left out.
namespace CallGraph

-- `visit_terminator`: a call through a constant whose `ty()` is a `FnDef`, whatever the
-- constant's variant.
def visitTerminator (terminator : Terminator) : List DefId :=
  match terminator.kind with
  | .call (.constant constant) _ _ =>
    match constant.toTy.kind with
    | .fnDef calleeDefId => [calleeDefId]
    | .other => []
  | _ => []

-- The loop of `visit`; `data.terminator()` panics on a block whose terminator is not set.
def visitBlocks : List BasicBlockData → Except Fault (List DefId)
  | [] => pure []
  | data :: rest => do
    let terminator ← match data.terminator with
      | some terminator => pure terminator
      | none => throw .unwrapNone
    let callees ← visitBlocks rest
    pure (visitTerminator terminator ++ callees)

def visit (body : Body) : Except Fault (List DefId) :=
  visitBlocks body.basicBlocks

end CallGraph

-- What the visitor records at one step of the builder's order.
def Instr.callees : Instr → List DefId
  | .terminator t => CallGraph.visitTerminator t
  | .statement _ => []

-- Whether the instruction's destination is the bare local `d`, so that it sets `d`'s op.
def Instr.writesLocal (d : Local) : Instr → Bool
  | .statement ⟨.assign place _, _⟩ => place.projection.isEmpty && place.local == d
  | .terminator ⟨.call _ _ destination, _⟩ => destination.local == d
  | _ => false

-- A call through a `Const::Val` function item whose destination no later instruction sets
-- again leaves that destination tagged with the callee.
def CallNodesKept (instrs : List Instr) (g : Graph) : Prop :=
  ∀ k ty text args destination span callee,
    instrs[k]? = some (.terminator ⟨.call (.constant (.val ty text)) args destination, span⟩) →
    ty.kind = .fnDef callee → (∀ instr ∈ instrs.drop (k + 1), instr.writesLocal destination.local = false) →
    ∃ node, g.nodes[destination.local]? = some node ∧ node.op = .call callee

namespace CallGraph

theorem visitBlocks_eq_ok {blocks : List BasicBlockData} {callees : List DefId} :
    visitBlocks blocks = .ok callees ↔ (∀ data ∈ blocks, data.terminator.isSome) ∧
      callees = (blocks.flatMap fun data =>
        data.statements.map .statement ++ data.terminator.toList.map .terminator).flatMap
          Instr.callees := by
  induction blocks generalizing callees with
  | nil =>
    simp only [visitBlocks, pure_eq_ok, List.not_mem_nil, false_imp_iff, implies_true, true_and,
      List.flatMap_nil]
    exact eq_comm
  | cons data rest ih =>
    cases ht : data.terminator with
    | none =>
      refine iff_of_false (fun h => ?_) (by simp [ht])
      simp only [visitBlocks, ht] at h
      cases h
    | some t =>
      have hdata : (data.statements.map Instr.statement ++ [t].map Instr.terminator).flatMap
          Instr.callees = visitTerminator t := by
        simp [List.flatMap_append, List.flatMap_map, Instr.callees]
      simp only [visitBlocks, ht]
      change visitBlocks rest >>= (fun cs => pure (visitTerminator t ++ cs)) = .ok callees ↔ _
      simp only [bind_eq_ok, ih, pure_eq_ok, List.forall_mem_cons, ht, Option.isSome_some,
        true_and, List.flatMap_cons, Option.toList_some, List.flatMap_append, hdata, and_assoc,
        exists_and_left, exists_eq_left]
      exact and_congr_right' eq_comm

-- `visit` succeeds on a body whose blocks all have terminators, and then records exactly the
-- callees of the calls in the builder's order.
theorem visit_eq_ok {body : Body} {callees : List DefId} :
    visit body = .ok callees ↔ (∀ data ∈ body.basicBlocks, data.terminator.isSome) ∧
      callees = body.instrs.flatMap Instr.callees :=
  visitBlocks_eq_ok

end CallGraph

namespace Graph

section Ops

variable {g g' : Graph} {instr : Instr} {instrs : List Instr} {v : Nat}

-- Every old node an instruction writes is a bare local of the instruction.
theorem writesLocal_of_dest (hv : g.dest instr = some v) (hlt : v < g.nodes.length) :
    instr.writesLocal v = true := by
  match instr, hv with
  | .statement ⟨.assign place _, _⟩, hv =>
    simp only [dest, Option.some.injEq] at hv
    split_ifs at hv with hp
    · simp [Instr.writesLocal, hp, hv]
    · have := List.length_pos.mpr hp
      dsimp only [Local] at hv
      omega
  | .terminator ⟨.call _ _ destination, _⟩, hv =>
    simp only [dest, Option.some.injEq] at hv
    simp [Instr.writesLocal, hv]

-- Instructions that do not set `v` leave its op alone.
theorem translate_keeps_op (h : g.translate instrs = .ok g')
    (hw : ∀ instr ∈ instrs, instr.writesLocal v = false) (hv : v < g.nodes.length) :
    g'.nodes[v]?.map (·.op) = g.nodes[v]?.map (·.op) := by
  induction instrs generalizing g with
  | nil => cases h; rfl
  | cons instr rest ih =>
    simp only [translate, bind_eq_ok] at h
    obtain ⟨g₁, h₁, h₂⟩ := h
    rw [List.forall_mem_cons] at hw
    have hstep := InstrStep.addInstr h₁
    have hd : g.dest instr ≠ some v := fun hd => by simpa [hw.1] using writesLocal_of_dest hd hv
    rw [ih h₂ hw.2 (hv.trans_le hstep.length_le), hstep.op_eq v hd hv]

-- `self.nodes[dst].op = NodeOp::Call(*def_id)`, which the span and `seq` writes after it keep.
theorem addInstr_call_op {ty : Ty} {text : String} {args : List Operand} {destination : Place}
    {span : Span} {callee : DefId}
    (h : g.addInstr (.terminator ⟨.call (.constant (.val ty text)) args destination, span⟩) = .ok g')
    (hty : ty.kind = .fnDef callee) : g'.nodes[destination.local]?.map (·.op) = some (.call callee) := by
  simp only [addInstr, addTerminatorToGraph, addCall, hty, bind_eq_ok, setOp_eq_ok,
    modifyNode_eq_ok] at h
  obtain ⟨g₁, ⟨g₀, -, hlt, rfl⟩, g₂, ⟨-, rfl⟩, -, rfl⟩ := h
  simp only [map_modify (·.op) (fun n => { n with seq := n.seq + 1 }) (fun _ => rfl),
    map_modify (·.op) (fun n => { n with span }) (fun _ => rfl), List.getElem?_modify_eq,
    List.getElem?_eq_getElem hlt]
  rfl

theorem translate_call_op {k : Nat} {ty : Ty} {text : String} {args : List Operand}
    {destination : Place} {span : Span} {callee : DefId} (h : g.translate instrs = .ok g')
    (hk : instrs[k]? = some (.terminator ⟨.call (.constant (.val ty text)) args destination, span⟩))
    (hty : ty.kind = .fnDef callee)
    (hw : ∀ instr ∈ instrs.drop (k + 1), instr.writesLocal destination.local = false) :
    ∃ node, g'.nodes[destination.local]? = some node ∧ node.op = .call callee := by
  have hlt := (List.getElem?_eq_some_iff.mp hk).1
  rw [← List.take_append_drop k instrs, List.drop_eq_getElem_cons hlt, translate_append,
    bind_eq_ok] at h
  obtain ⟨g₁, -, h⟩ := h
  simp only [translate, bind_eq_ok, (List.getElem?_eq_some_iff.mp hk).2] at h
  obtain ⟨g₂, h₂, h₃⟩ := h
  have hop := addInstr_call_op h₂ hty
  obtain ⟨node, hnode, -⟩ := Option.map_eq_some'.mp hop
  have hkeep := translate_keeps_op h₃ hw (List.getElem?_eq_some_iff.mp hnode).1
  rw [hop] at hkeep
  exact Option.map_eq_some'.mp hkeep

end Ops

-- The dataflow graph of a supported body keeps, as a `Call` node, the callee of every call the
-- visitor records that goes through a `Const::Val` and whose destination no later instruction
-- sets again.
theorem visit_callees_in_graph {body : Body} {callees : List DefId} {defId : DefId} {span : Span}
    (hs : ∀ instr ∈ body.instrs, instr.supported)
    (hi : ∀ instr ∈ body.instrs, instr.localsBelow body.localDecls)
    (hv : CallGraph.visit body = .ok callees) :
    ∃ g, (Graph.new defId span body.argCount body.localDecls).translate body.instrs = .ok g ∧
      callees = body.instrs.flatMap Instr.callees ∧ CallNodesKept body.instrs g := by
  obtain ⟨g, hg⟩ := (wellFormed_new defId span body.argCount body.localDecls).translate_ok hs hi
  exact ⟨g, hg, (CallGraph.visit_eq_ok.mp hv).2, fun _ _ _ _ _ _ _ hk hty hw =>
    translate_call_op hg hk hty hw⟩

-- `f`, a function item named by a `Const::Val`.
def fnF : Const := .val ⟨.fnDef ⟨0, 1⟩, "fn() {f}"⟩ "f"

-- `_0 = f(copy _1)`
def callOnce : Body :=
  ⟨1, 2, [⟨[], some ⟨.call (.constant fnF) [.copy ⟨1, []⟩] ⟨0, []⟩, dummySp⟩⟩]⟩

theorem visit_callees_in_graph_callOnce :
    (∀ instr ∈ callOnce.instrs, instr.supported) ∧
    (∀ instr ∈ callOnce.instrs, instr.localsBelow callOnce.localDecls) ∧
    CallGraph.visit callOnce = .ok [⟨0, 1⟩] ∧
    ∃ g, (Graph.new ⟨0, 0⟩ dummySp callOnce.argCount callOnce.localDecls).translate callOnce.instrs =
      .ok g ∧ [⟨0, 1⟩] = callOnce.instrs.flatMap Instr.callees ∧ CallNodesKept callOnce.instrs g :=
  ⟨by decide, by decide, rfl, visit_callees_in_graph (by decide) (by decide) rfl⟩

-- `_1 = f()` in one block and `_1 = g()` in the next, as after an `if` whose two arms call; and
-- `_0 = f()` with `f` named by a `Const::Ty`.
def callInto (c : Const) (d : Local) : BasicBlockData :=
  ⟨[], some ⟨.call (.constant c) [] ⟨d, []⟩, dummySp⟩⟩

def twoCallsOneSlot : Body :=
  ⟨0, 2, [callInto fnF 1, callInto (.val ⟨.fnDef ⟨0, 2⟩, "fn() {g}"⟩ "g") 1]⟩

def twoCallsGraph : Graph where
  defId := ⟨0, 0⟩
  span := dummySp
  argc := 0
  nodes := [GraphNode.new, ⟨.call ⟨0, 2⟩, dummySp, 2, [], []⟩]
  edges := []
  nLocals := 2

def tyCall : Body :=
  ⟨0, 1, [callInto (.ty ⟨.fnDef ⟨0, 1⟩, "fn() {f}"⟩ "f") 0]⟩

def tyCallGraph : Graph where
  defId := ⟨0, 0⟩
  span := dummySp
  argc := 0
  nodes := [⟨.nop, dummySp, 1, [], []⟩]
  edges := []
  nLocals := 1

theorem visit_callee_missing_from_graph :
    CallGraph.visit twoCallsOneSlot = .ok [⟨0, 1⟩, ⟨0, 2⟩] ∧
    (Graph.new ⟨0, 0⟩ dummySp 0 2).translate twoCallsOneSlot.instrs = .ok twoCallsGraph ∧
    (∀ node ∈ twoCallsGraph.nodes, node.op ≠ .call ⟨0, 1⟩) ∧
    CallGraph.visit tyCall = .ok [⟨0, 1⟩] ∧
    (Graph.new ⟨0, 0⟩ dummySp 0 1).translate tyCall.instrs = .ok tyCallGraph ∧
    (∀ node ∈ tyCallGraph.nodes, node.op ≠ .call ⟨0, 1⟩) :=
  ⟨rfl, rfl, by decide, rfl, rfl, by decide⟩

end Graph

end RapxDataflow
