import RapxDataflow.Query.Adjacency
import RapxDataflow.Graph.Place
import RapxDataflow.CallGraph

namespace RapxDataflow

-- Whether the instruction is a call through a moved operand whose destination local is `d`: the
-- one shape `add_terminator_to_graph` tags `NodeOp::CallOperand`.
def Instr.indirectCallInto (d : Local) : Instr → Bool
  | .terminator ⟨.call (.move _) _ destination, _⟩ => destination.local == d
  | _ => false

theorem Instr.indirectCallInto_eq_true {d : Local} {instr : Instr}
    (h : instr.indirectCallInto d = true) : ∃ callee args destination span,
      instr = .terminator ⟨.call (.move callee) args destination, span⟩ ∧ destination.local = d := by
  rcases instr with ⟨kind, span⟩ | ⟨kind, span⟩
  · cases kind <;> simp [Instr.indirectCallInto] at h
  · rcases kind with ⟨func, args, destination⟩ | _
    · cases func with
      | move callee =>
        exact ⟨callee, args, destination, span, rfl, by simpa [Instr.indirectCallInto] using h⟩
      | _ => simp [Instr.indirectCallInto] at h
    · simp [Instr.indirectCallInto] at h

-- An instruction over locals below `n` sets no node from `n` on.
theorem Instr.writesLocal_eq_false {n v : Nat} {instr : Instr} (hi : instr.localsBelow n)
    (hv : n ≤ v) : instr.writesLocal v = false := by
  match instr, hi with
  | .statement ⟨.assign place _, _⟩, hi =>
    simp only [Instr.localsBelow, Place.localsBelow, Bool.and_eq_true, decide_eq_true_eq] at hi
    simp only [Instr.writesLocal, Bool.and_eq_false_iff, beq_eq_false_iff_ne]
    exact .inr (Nat.ne_of_lt (Nat.lt_of_lt_of_le hi.1.1 hv))
  | .statement ⟨.other, _⟩, _ | .terminator ⟨.other, _⟩, _ => rfl
  | .terminator ⟨.call _ _ destination, _⟩, hi =>
    simp only [Instr.localsBelow, Place.localsBelow, Bool.and_eq_true, decide_eq_true_eq] at hi
    simp only [Instr.writesLocal, beq_eq_false_iff_ne]
    exact Nat.ne_of_lt (Nat.lt_of_lt_of_le hi.2.1 hv)

namespace Graph

theorem idsWhere_length (edges : List GraphEdge) (p : GraphEdge → Bool) :
    (idsWhere edges p).length = (edges.filter p).length := by
  simpa using congrArg List.length (idsWhere_lookup edges p)

section Edges

variable {g g' : Graph} {instrs : List Instr}

theorem translate_edges_prefix (h : g.translate instrs = .ok g') : g.edges <+: g'.edges := by
  induction instrs generalizing g with
  | nil => exact (pure_eq_ok.mp h) ▸ List.prefix_refl _
  | cons instr rest ih =>
    simp only [translate, bind_eq_ok] at h
    obtain ⟨g₁, h₁, h₂⟩ := h
    have hstep := InstrStep.addInstr h₁
    exact hstep.edges_prefix.trans (ih h₂)

-- An indirect call resolves its callee and then its arguments into `destination.local`, one
-- edge from each; the tag, span and `seq` writes after them draw none.
theorem addInstr_indirectCall_edges {callee : Place} {args : List Operand} {destination : Place}
    {span : Span} (hdst : destination.local < g.nodes.length)
    (h : g.addInstr (.terminator ⟨.call (.move callee) args destination, span⟩) = .ok g') :
    ∃ es, g'.edges = g.edges ++ es ∧ (es.filter (·.dst == destination.local)).map (·.src) =
      Operand.sources g.nodes.length (.move callee :: args) := by
  simp only [addInstr, addTerminatorToGraph, addCall, bind_eq_ok, setOp_eq_ok,
    modifyNode_eq_ok] at h
  obtain ⟨g₃, ⟨g₁, h₁, g₂, h₂, -, rfl⟩, g₄, ⟨-, rfl⟩, -, rfl⟩ := h
  have hops : g.addOperands destination.local (.move callee :: args) = .ok g₂ := by
    simp only [addOperands, h₁, ok_bind, h₂]
  obtain ⟨es, hes, hfilter⟩ := addOperands_edges hdst hops
  exact ⟨es, hes, hfilter⟩

theorem modifyNode_getElem?_ne {i v : Local} {f : GraphNode → GraphNode} (h : g.modifyNode i f = .ok g')
    (hv : i ≠ v) : g'.nodes[v]? = g.nodes[v]? := by
  obtain ⟨-, rfl⟩ := modifyNode_eq_ok.mp h
  exact List.getElem?_modify_ne _ _ hv

-- A constant operand is resolved to the `Const` node it pushes, which the later operands of
-- the same batch leave alone.
theorem addOperands_const {operands : List Operand} {dst : Local} (hdst : dst < g.nodes.length)
    (h : g.addOperands dst operands = .ok g') {j : Nat} {c : Const}
    (hj : operands[j]? = some (.constant c)) : ∃ src,
      (Operand.sources g.nodes.length operands)[j]? = some src ∧ g.nodes.length ≤ src ∧
        g'.nodes[src]?.map (·.op) = some (.const c.text) := by
  induction operands generalizing g j with
  | nil => cases hj
  | cons operand rest ih =>
    simp only [Graph.addOperands, bind_eq_ok] at h
    obtain ⟨g₁, h₁, h₂⟩ := h
    have hlen := (addOperand_edges h₁).1
    cases j with
    | zero =>
      obtain rfl : operand = .constant c := Option.some.inj (by rwa [List.getElem?_cons_zero] at hj)
      obtain ⟨e, h₁⟩ := fst_map_eq_ok.mp h₁
      obtain ⟨n, -, -, rfl⟩ := addConstEdge_spec h₁
      have hb : Batch g.nodes.length dst _ g' := Batch.addOperands (by simp) (.inl rfl) h₂
      refine ⟨g.nodes.length, by simp [Operand.sources, Operand.source], le_rfl, ?_⟩
      rw [hb.op_eq _ (Nat.ne_of_gt hdst) (by simp),
        map_modify (·.op) (·.pushInEdge _) (fun _ => rfl)]
      simp
    | succ j =>
      rw [List.getElem?_cons_succ] at hj
      obtain ⟨src, hsrc, hle, hop⟩ := ih (hlen ▸ Nat.lt_of_lt_of_le hdst (Nat.le_add_right _ _)) h₂ hj
      rw [hlen] at hsrc hle
      exact ⟨src, by rwa [Operand.sources, List.getElem?_cons_succ], le_trans (Nat.le_add_right _ _) hle, hop⟩

theorem addInstr_indirectCall_const {callee : Place} {args : List Operand} {destination : Place}
    {span : Span} (hdst : destination.local < g.nodes.length)
    (h : g.addInstr (.terminator ⟨.call (.move callee) args destination, span⟩) = .ok g') {j : Nat}
    {c : Const} (hj : args[j]? = some (.constant c)) : ∃ src,
      (Operand.sources g.nodes.length (.move callee :: args))[j + 1]? = some src ∧
        g.nodes.length ≤ src ∧ g'.nodes[src]?.map (·.op) = some (.const c.text) := by
  simp only [addInstr, addTerminatorToGraph, addCall, bind_eq_ok] at h
  obtain ⟨g₃, ⟨g₁, h₁, g₂, h₂, h₃⟩, g₄, h₄, h₅⟩ := h
  have hops : g.addOperands destination.local (.move callee :: args) = .ok g₂ := by
    simp only [addOperands, h₁, ok_bind, h₂]
  obtain ⟨src, hsrc, hle, hop⟩ := addOperands_const hdst hops (j := j + 1)
    (by rwa [List.getElem?_cons_succ])
  have hne : destination.local ≠ src := Nat.ne_of_lt (Nat.lt_of_lt_of_le hdst hle)
  refine ⟨src, hsrc, hle, ?_⟩
  rw [modifyNode_getElem?_ne h₅ hne, modifyNode_getElem?_ne h₄ hne, modifyNode_getElem?_ne h₃ hne, hop]

end Edges

section Position

variable {instrs : List Instr} {defId : DefId} {span : Span} {argc n : Nat} {G : Graph}

-- Whatever was written to the slot before, after the whole run its in-edges from position `m`
-- on are those of an indirect call into it, callee first, `m` being the slot's in-degree just
-- before the call.
theorem indirectCall_upside {k : Nat} {callee : Place} {args : List Operand} {destination : Place}
    {span' : Span} (hi : ∀ instr ∈ instrs, instr.localsBelow n)
    (hG : (Graph.new defId span argc n).translate instrs = .ok G)
    (hk : instrs[k]? = some (.terminator ⟨.call (.move callee) args destination, span'⟩)) :
    ∃ gk node, (Graph.new defId span argc n).translate (instrs.take k) = .ok gk ∧
      gk.nodes[destination.local]? = some node ∧
      (∀ j src, (Operand.sources gk.nodes.length (.move callee :: args))[j]? = some src →
        G.getUpsideIdx destination.local (node.inEdges.length + j) = .ok (some src)) ∧
      ∀ j c, args[j]? = some (.constant c) → ∃ src,
        (Operand.sources gk.nodes.length (.move callee :: args))[j + 1]? = some src ∧
          G.nodes[src]?.map (·.op) = some (.const c.text) := by
  have hlt := (List.getElem?_eq_some_iff.mp hk).1
  have hsplit := hG
  rw [← List.take_append_drop k instrs, List.drop_eq_getElem_cons hlt, translate_append,
    bind_eq_ok] at hsplit
  obtain ⟨gk, hgk, h⟩ := hsplit
  simp only [translate, bind_eq_ok, (List.getElem?_eq_some_iff.mp hk).2] at h
  obtain ⟨gk', hstep, hrest⟩ := h
  -- the slot is a local, so every graph of the run has a node for it
  have hd : destination.local < n := by
    have := hi _ (List.mem_iff_getElem?.mpr ⟨k, hk⟩)
    simp only [Instr.localsBelow, Place.localsBelow, Bool.and_eq_true, decide_eq_true_eq] at this
    exact this.2.1
  obtain ⟨hgkw, -, hgkn⟩ := wellFormed_translate_new (fun i hi' => hi i (List.mem_of_mem_take hi')) hgk
  have hdk : destination.local < gk.nodes.length := (hgkw.locals_plain _ (hgkn ▸ hd)).lt
  obtain ⟨node, hnode⟩ : ∃ node, gk.nodes[destination.local]? = some node :=
    ⟨_, List.getElem?_eq_getElem hdk⟩
  obtain ⟨hGw, -, hGn⟩ := wellFormed_translate_new hi hG
  obtain ⟨nG, hnG⟩ : ∃ nG, G.nodes[destination.local]? = some nG :=
    ⟨_, List.getElem?_eq_getElem (hGw.locals_plain _ (hGn ▸ hd)).lt⟩
  obtain ⟨es, hes, hfilter⟩ := addInstr_indirectCall_edges hdk hstep
  obtain ⟨tail, htail⟩ := translate_edges_prefix hrest
  refine ⟨gk, node, hgk, hnode, fun j src hj => ?_, fun j c hj => ?_⟩
  rotate_left
  · -- a constant argument's node is past the locals, which no later instruction sets
    obtain ⟨src, hsrc, hle, hop⟩ := addInstr_indirectCall_const hdk hstep hj
    have hn : n ≤ gk.nodes.length :=
      Nat.le_of_not_lt fun hlt => Nat.lt_irrefl _ (hgkw.locals_plain _ (hgkn ▸ hlt)).lt
    obtain ⟨m, hm, -⟩ := Option.map_eq_some'.mp hop
    refine ⟨src, hsrc, ?_⟩
    rw [translate_keeps_op hrest (fun i hi' => Instr.writesLocal_eq_false
      (hi i (List.mem_of_mem_drop hi')) (le_trans hn hle)) (List.getElem?_eq_some_iff.mp hm).1, hop]
  have hm : node.inEdges.length = (gk.edges.filter (·.dst == destination.local)).length := by
    rw [hgkw.in_edges _ node hnode, idsWhere_length]
  have hjlt : j < (es.filter (·.dst == destination.local)).length := by
    have := (List.getElem?_eq_some_iff.mp hj).1
    rwa [← hfilter, List.length_map] at this
  rw [hGw.getUpsideIdx_eq hnG, ← htail, hes, List.filter_append, List.filter_append,
    List.append_assoc, hm, List.getElem?_append_right (Nat.le_add_right _ _),
    Nat.add_sub_cancel_left, List.getElem?_append_left hjlt, ← List.getElem?_map, hfilter, hj]

end Position

-- Node `d` of `g'` carries `CallOperand` only if it already did in `g`.
def NoNewCallOperand (d : Local) (g g' : Graph) : Prop :=
  g'.nodes[d]?.map (·.op) = some .callOperand → g.nodes[d]?.map (·.op) = some .callOperand

section NoNew

variable {d : Local} {g g₁ g₂ g' : Graph}

theorem NoNewCallOperand.trans (h₁ : NoNewCallOperand d g g₁) (h₂ : NoNewCallOperand d g₁ g₂) :
    NoNewCallOperand d g g₂ := fun h => h₁ (h₂ h)

-- A write to one node that tags it `CallOperand` only if it is not `d`.
theorem NoNewCallOperand.modifyNode {i : Local} {f : GraphNode → GraphNode}
    (h : g.modifyNode i f = .ok g') (hf : ∀ n, (f n).op = .callOperand → i = d → n.op = .callOperand) :
    NoNewCallOperand d g g' := by
  obtain ⟨-, rfl⟩ := modifyNode_eq_ok.mp h
  intro hd
  obtain ⟨m, hm, hop⟩ := Option.map_eq_some'.mp hd
  simp only [List.getElem?_modify, Option.map_eq_map, Option.map_eq_some'] at hm
  obtain ⟨n, hn, rfl⟩ := hm
  rw [hn, Option.map_some']
  split_ifs at hop with hid
  · exact congrArg some (hf n hop hid)
  · exact congrArg some hop

theorem NoNewCallOperand.keepsOp {i : Local} {f : GraphNode → GraphNode} (h : g.modifyNode i f = .ok g')
    (hf : ∀ n, (f n).op = n.op) : NoNewCallOperand d g g' :=
  .modifyNode h fun n hn _ => hf n ▸ hn

theorem NoNewCallOperand.setOp {i : Local} {o : NodeOp} (h : g.setOp i o = .ok g')
    (ho : o ≠ .callOperand ∨ i ≠ d) : NoNewCallOperand d g g' :=
  .modifyNode h fun _ hn hi => (ho.resolve_left (not_not.mpr hn) hi).elim

theorem NoNewCallOperand.addNodeEdge {src dst : Local} {op : EdgeOp} {e : EdgeIdx}
    (h : g.addNodeEdge src dst op = .ok (g', e)) : NoNewCallOperand d g g' := by
  obtain ⟨n, -, -, -, rfl⟩ := addNodeEdge_spec h
  intro hd
  rwa [map_modify (·.op) (·.pushOutEdge _) (fun _ => rfl),
    map_modify (·.op) (·.pushInEdge _) (fun _ => rfl)] at hd

theorem NoNewCallOperand.addConstEdge {text : String} {dst : Local} {op : EdgeOp} {e : EdgeIdx}
    (h : g.addConstEdge text dst op = .ok (g', e)) : NoNewCallOperand d g g' := by
  obtain ⟨n, -, -, rfl⟩ := addConstEdge_spec h
  intro hd
  rw [map_modify (·.op) (·.pushInEdge _) (fun _ => rfl)] at hd
  obtain ⟨m, hm, hop⟩ := Option.map_eq_some'.mp hd
  rcases getElem?_push_eq_some.mp hm with hm | ⟨-, rfl⟩
  · rw [hm, Option.map_some', hop]
  · cases hop

-- Projection nodes are fresh `Nop` nodes, and old nodes keep their op.
theorem NoNewCallOperand.of_appends {k : Nat} {es : List GraphEdge} (ha : Appends g g' k es) :
    NoNewCallOperand d g g' := by
  intro hd
  obtain ⟨m, hm, hop⟩ := Option.map_eq_some'.mp hd
  rcases Nat.lt_or_ge d g.nodes.length with hlt | hge
  · obtain ⟨outs, h⟩ := ha.old d _ (List.getElem?_eq_getElem hlt)
    rw [h] at hm
    cases hm
    rw [List.getElem?_eq_getElem hlt, Option.map_some', ← hop]
  · obtain ⟨i, rfl⟩ : ∃ i, d = g.nodes.length + i :=
      ⟨d - g.nodes.length, (Nat.add_sub_cancel' hge).symm⟩
    have hi : i < k := by
      have := (List.getElem?_eq_some_iff.mp hm).1
      rw [ha.length_eq] at this
      exact Nat.lt_of_add_lt_add_left this
    obtain ⟨ins, outs, h⟩ := ha.fresh i hi
    rw [h] at hm
    cases hm
    cases hop

theorem NoNewCallOperand.addPlaceEdge {place : Place} {dst : Local} {op : EdgeOp}
    (h : g.addPlaceEdge place dst op = .ok g') : NoNewCallOperand d g g' := by
  simp only [Graph.addPlaceEdge, bind_eq_ok] at h
  obtain ⟨⟨g₁, src⟩, h₁, h₂⟩ := h
  obtain ⟨e, h₂⟩ := fst_map_eq_ok.mp h₂
  exact (of_appends (Appends.parseSteps h₁).1).trans (.addNodeEdge h₂)

theorem NoNewCallOperand.addOperand {operand : Operand} {dst : Local}
    (h : g.addOperand operand dst = .ok g') : NoNewCallOperand d g g' := by
  cases operand with
  | copy place | move place => exact .addPlaceEdge h
  | constant c =>
    obtain ⟨e, h⟩ := fst_map_eq_ok.mp h
    exact .addConstEdge h

theorem NoNewCallOperand.addOperands {operands : List Operand} {dst : Local}
    (h : g.addOperands dst operands = .ok g') : NoNewCallOperand d g g' := by
  induction operands generalizing g with
  | nil => exact (pure_eq_ok.mp h) ▸ id
  | cons operand rest ih =>
    simp only [Graph.addOperands, bind_eq_ok] at h
    obtain ⟨g₁, h₁, h₂⟩ := h
    exact (NoNewCallOperand.addOperand h₁).trans (ih h₂)

-- No right-hand side is tagged `CallOperand`.
theorem NoNewCallOperand.addRvalue {rvalue : Rvalue} {dst : Local} (h : g.addRvalue rvalue dst = .ok g') :
    NoNewCallOperand d g g' := by
  have tag : ∀ {g₁ : Graph} {o : NodeOp}, NoNewCallOperand d g g₁ → g₁.setOp dst o = .ok g' →
      o ≠ .callOperand → NoNewCallOperand d g g' := fun h₁ h₂ ho => h₁.trans (.setOp h₂ (.inl ho))
  cases rvalue <;> simp only [Graph.addRvalue, bind_eq_ok] at h
  case use | «repeat» | cast | unaryOp | shallowInitBox =>
    obtain ⟨g₁, h₁, h₂⟩ := h
    exact tag (.addOperand h₁) h₂ (by decide)
  case ref | len | discriminant | copyForDeref =>
    obtain ⟨g₁, h₁, h₂⟩ := h
    exact tag (.addPlaceEdge h₁) h₂ (by decide)
  case binaryOp =>
    obtain ⟨g₁, h₁, g₂, h₂, h₃⟩ := h
    exact tag ((NoNewCallOperand.addOperand h₁).trans (.addOperand h₂)) h₃ (by decide)
  case aggregate kind _ =>
    obtain ⟨g₁, h₁, h₂⟩ := h
    cases hk : aggKind kind <;> simp only [hk, throw_ne_ok] at h₂
    exact tag (.addOperands h₁) h₂ fun h => NodeOp.noConfusion h
  case nullaryOp =>
    obtain ⟨g₁, h₁, h₂⟩ := h
    obtain ⟨e, h₁⟩ := fst_map_eq_ok.mp h₁
    exact tag (.addConstEdge h₁) h₂ (by decide)
  case threadLocalRef | rawPtr => exact absurd h throw_ne_ok

theorem NoNewCallOperand.addStatmToGraph {statement : Statement}
    (h : g.addStatmToGraph statement = .ok g') : NoNewCallOperand d g g' := by
  obtain ⟨kind, span⟩ := statement
  cases kind with
  | other => exact (pure_eq_ok.mp h) ▸ id
  | assign place rvalue =>
    simp only [Graph.addStatmToGraph, bind_eq_ok] at h
    obtain ⟨⟨g₁, dst⟩, h₁, g₂, h₂, g₃, h₃, h₄⟩ := h
    exact (of_appends (Appends.parseSteps h₁).1).trans (((keepsOp h₂ fun _ => rfl).trans
      (.addRvalue h₃)).trans (keepsOp h₄ fun _ => rfl))

-- Only an indirect call into `d` tags `d` `CallOperand`.
theorem NoNewCallOperand.addInstr {instr : Instr} (h : g.addInstr instr = .ok g')
    (hd : instr.indirectCallInto d = false) : NoNewCallOperand d g g' := by
  cases instr with
  | statement statement => exact .addStatmToGraph h
  | terminator terminator =>
    obtain ⟨kind, span⟩ := terminator
    cases kind with
    | other => exact (pure_eq_ok.mp h) ▸ id
    | call func args destination =>
      simp only [Graph.addInstr, Graph.addTerminatorToGraph, bind_eq_ok] at h
      obtain ⟨g₁, h₁, g₂, h₂, h₃⟩ := h
      refine NoNewCallOperand.trans ?_ ((keepsOp h₂ fun _ => rfl).trans (keepsOp h₃ fun _ => rfl))
      match func, hd with
      | .constant (.val ty _), _ =>
        cases hk : ty.kind with
        | fnDef defId =>
          simp only [Graph.addCall, hk, bind_eq_ok] at h₁
          obtain ⟨g₄, h₄, h₅⟩ := h₁
          exact (NoNewCallOperand.addOperands h₄).trans (.setOp h₅ (.inl fun h => NodeOp.noConfusion h))
        | other =>
          simp only [Graph.addCall, hk, pure_eq_ok] at h₁
          exact h₁ ▸ id
      | .constant (.ty _ _), _ | .constant (.unevaluated _ _), _ => exact (pure_eq_ok.mp h₁) ▸ id
      | .move place, hd =>
        simp only [Graph.addCall, bind_eq_ok] at h₁
        obtain ⟨g₄, h₄, g₅, h₅, h₆⟩ := h₁
        simp only [Instr.indirectCallInto, beq_eq_false_iff_ne] at hd
        exact ((NoNewCallOperand.addOperand h₄).trans (.addOperands h₅)).trans (.setOp h₆ (.inr hd))
      | .copy _, _ => exact absurd h₁ throw_ne_ok

-- Over a run, `d` ends up tagged `CallOperand` only if it started so and no indirect call into
-- it ran, or some indirect call into `d` is the last one of the run.
theorem translate_lastIndirectCall {instrs : List Instr} (h : g.translate instrs = .ok g')
    (hd : g'.nodes[d]?.map (·.op) = some .callOperand) :
    (g.nodes[d]?.map (·.op) = some .callOperand ∧ ∀ instr ∈ instrs, instr.indirectCallInto d = false) ∨
    ∃ k instr, instrs[k]? = some instr ∧ instr.indirectCallInto d = true ∧
      ∀ instr ∈ instrs.drop (k + 1), instr.indirectCallInto d = false := by
  induction instrs generalizing g with
  | nil => exact .inl ⟨(pure_eq_ok.mp h) ▸ hd, fun _ h => absurd h (List.not_mem_nil _)⟩
  | cons instr rest ih =>
    simp only [translate, bind_eq_ok] at h
    obtain ⟨g₁, h₁, h₂⟩ := h
    rcases ih h₂ with ⟨hd₁, hrest⟩ | ⟨k, instr', hk, hind, hlast⟩
    · cases hx : instr.indirectCallInto d
      · exact .inl ⟨NoNewCallOperand.addInstr h₁ hx hd₁, List.forall_mem_cons.mpr ⟨hx, hrest⟩⟩
      · exact .inr ⟨0, instr, List.getElem?_cons_zero, hx, hrest⟩
    · exact .inr ⟨k + 1, instr', by rwa [List.getElem?_cons_succ], hind, hlast⟩

end NoNew

-- On every built graph a node tagged `CallOperand` was last written by an indirect call, and
-- from `m`, its in-degree just before that call, on: `get_upside_idx(d, m)` is the callee's
-- node and `get_upside_idx(d, m + j + 1)` the node of the call's `j`-th argument, a `Const`
-- node for a constant argument.
theorem callOperand_upside_order {instrs : List Instr} {defId : DefId} {span : Span} {argc n : Nat}
    (hi : ∀ instr ∈ instrs, instr.localsBelow n) {G : Graph}
    (hG : (Graph.new defId span argc n).translate instrs = .ok G) {d : Local}
    (hd : G.nodes[d]?.map (·.op) = some .callOperand) :
    ∃ k callee args destination span' gk node,
      instrs[k]? = some (.terminator ⟨.call (.move callee) args destination, span'⟩) ∧
      destination.local = d ∧ (∀ instr ∈ instrs.drop (k + 1), instr.indirectCallInto d = false) ∧
      (Graph.new defId span argc n).translate (instrs.take k) = .ok gk ∧ gk.nodes[d]? = some node ∧
      (∀ j src, (Operand.sources gk.nodes.length (.move callee :: args))[j]? = some src →
        G.getUpsideIdx d (node.inEdges.length + j) = .ok (some src)) ∧
      ∀ j c, args[j]? = some (.constant c) → ∃ src,
        (Operand.sources gk.nodes.length (.move callee :: args))[j + 1]? = some src ∧
          G.nodes[src]?.map (·.op) = some (.const c.text) := by
  rcases translate_lastIndirectCall hG hd with ⟨hnew, -⟩ | ⟨k, instr, hk, hind, hlast⟩
  · -- `Graph::new` tags no node `CallOperand`
    simp only [Graph.new, List.getElem?_replicate] at hnew
    split_ifs at hnew <;> cases hnew
  · obtain ⟨callee, args, destination, span', rfl, rfl⟩ := Instr.indirectCallInto_eq_true hind
    obtain ⟨gk, node, hgk, hnode, hpos, hconst⟩ := indirectCall_upside hi hG hk
    exact ⟨k, callee, args, destination, span', gk, node, hk, rfl, hlast, hgk, hnode, hpos, hconst⟩

-- `_1 = copy _2; _1 = move _3(copy (*_2), const 7_i32)`: slot 1 is written by a copy, then by an
-- indirect call through `_3` with a projected and a constant argument.
def copyThenCallArgs : List Instr :=
  [.statement ⟨.assign ⟨1, []⟩ (.use (.copy ⟨2, []⟩)), dummySp⟩,
    .terminator ⟨.call (.move ⟨3, []⟩) [.copy ⟨2, [.deref]⟩, .constant (.val ⟨.other, "i32"⟩ "7_i32")]
      ⟨1, []⟩, dummySp⟩]

def copyThenCallArgsGraph : Graph where
  defId := ⟨0, 0⟩
  span := dummySp
  argc := 0
  nodes := [GraphNode.new, ⟨.callOperand, dummySp, 2, [], [0, 1, 3, 4]⟩, ⟨.nop, dummySp, 0, [0, 2], []⟩,
    ⟨.nop, dummySp, 0, [1], []⟩, ⟨.nop, dummySp, 0, [3], [2]⟩, ⟨.const "7_i32", dummySp, 0, [], []⟩]
  edges := [⟨2, 1, .copy, 0⟩, ⟨3, 1, .move, 1⟩, ⟨2, 4, .deref, 0⟩, ⟨4, 1, .copy, 1⟩, ⟨5, 1, .const, 1⟩]
  nLocals := 4

-- Behind the copy's in-edge come the callee `_3`, the deref node 4 of `*_2` and the constant
-- node 5.
theorem callOperand_upside_order_copyThenCallArgs :
    (∀ instr ∈ copyThenCallArgs, instr.localsBelow 4) ∧
    (Graph.new ⟨0, 0⟩ dummySp 0 4).translate copyThenCallArgs = .ok copyThenCallArgsGraph ∧
    copyThenCallArgsGraph.nodes[1]?.map (·.op) = some .callOperand ∧
    copyThenCallArgsGraph.getUpsideIdx 1 1 = .ok (some 3) ∧
    copyThenCallArgsGraph.getUpsideIdx 1 2 = .ok (some 4) ∧
    copyThenCallArgsGraph.getUpsideIdx 1 3 = .ok (some 5) ∧
    ∃ k callee args destination span' gk node,
      copyThenCallArgs[k]? = some (.terminator ⟨.call (.move callee) args destination, span'⟩) ∧
      destination.local = 1 ∧
      (∀ instr ∈ copyThenCallArgs.drop (k + 1), instr.indirectCallInto 1 = false) ∧
      (Graph.new ⟨0, 0⟩ dummySp 0 4).translate (copyThenCallArgs.take k) = .ok gk ∧
      gk.nodes[1]? = some node ∧
      (∀ j src, (Operand.sources gk.nodes.length (.move callee :: args))[j]? = some src →
        copyThenCallArgsGraph.getUpsideIdx 1 (node.inEdges.length + j) = .ok (some src)) ∧
      ∀ j c, args[j]? = some (.constant c) → ∃ src,
        (Operand.sources gk.nodes.length (.move callee :: args))[j + 1]? = some src ∧
          copyThenCallArgsGraph.nodes[src]?.map (·.op) = some (.const c.text) :=
  ⟨by decide, rfl, rfl, rfl, rfl, rfl, callOperand_upside_order (by decide) (by rfl) (by rfl)⟩

-- `_1 = copy _2; _1 = move _3()`: slot 1 is written by a copy, then by an indirect call through
-- `_3`.
def copyThenCall : List Instr :=
  [.statement ⟨.assign ⟨1, []⟩ (.use (.copy ⟨2, []⟩)), dummySp⟩,
    .terminator ⟨.call (.move ⟨3, []⟩) [] ⟨1, []⟩, dummySp⟩]

def copyThenCallGraph : Graph where
  defId := ⟨0, 0⟩
  span := dummySp
  argc := 0
  nodes := [GraphNode.new, ⟨.callOperand, dummySp, 2, [], [0, 1]⟩, ⟨.nop, dummySp, 0, [0], []⟩,
    ⟨.nop, dummySp, 0, [1], []⟩]
  edges := [⟨2, 1, .copy, 0⟩, ⟨3, 1, .move, 1⟩]
  nLocals := 4

-- On that body, the first in-edge of the `CallOperand` node comes from the copied `_2`, not
-- from the callee `_3`, which is the second.
theorem callOperand_first_inEdge_not_callee :
    (Graph.new ⟨0, 0⟩ dummySp 0 4).translate copyThenCall = .ok copyThenCallGraph ∧
    copyThenCallGraph.nodes[1]?.map (·.op) = some .callOperand ∧
    copyThenCallGraph.getUpsideIdx 1 0 = .ok (some 2) ∧
    copyThenCallGraph.getUpsideIdx 1 1 = .ok (some 3) :=
  ⟨rfl, rfl, rfl, rfl⟩

end Graph

end RapxDataflow
