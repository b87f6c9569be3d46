import RapxDataflow.Rap

namespace RapxDataflow.Rap

-- What rap's `build_graph` computes, said without the loop: the edges of all instructions in
-- order, each node listing the ids of the edges at it, and each node carrying the op of the last
-- instruction that wrote it.

-- The node an edge ends at, and the node it leaves, which a constant edge does not have.
def GraphEdge.dst : GraphEdge → Local
  | .nodeEdge _ dst _ | .constEdge _ dst _ => dst

def GraphEdge.src? : GraphEdge → Option Local
  | .nodeEdge src _ _ => some src
  | .constEdge _ _ _ => none

-- The ids, in push order, of the edges that satisfy `p`.
def edgeIds (edges : List GraphEdge) (p : GraphEdge → Bool) : List EdgeIdx :=
  (List.range edges.length).filter fun e => edges[e]?.any p

-- The edge `add_operand(operand, dst)` pushes.
def operandEdge (dst : Local) : Operand → GraphEdge
  | .copy place => .nodeEdge place.local dst .copy
  | .move place => .nodeEdge place.local dst .move
  | .constant const => .constEdge const.text dst .const

-- What the builder does with one instruction: the edges it pushes and the op it writes, with
-- the local it writes it to; `none` where it panics.
def effect : Instr → Option (List GraphEdge × Option (Local × NodeOp))
  | .statement ⟨.assign place rvalue, _⟩ =>
    match rvalue with
    | .use operand => some ([operandEdge place.local operand], some (place.local, .use))
    | .binaryOp binOp lhs rhs =>
      if binOp.isWithOverflow then
        some ([operandEdge place.local lhs, operandEdge place.local rhs],
          some (place.local, .checkedBinaryOp))
      else none
    | .aggregate _ operands =>
      some (operands.map (operandEdge place.local), some (place.local, .aggregate))
    | _ => none
  | .statement ⟨.other, _⟩ => some ([], none)
  | .terminator ⟨.call (.constant (.val ty _)) args destination, _⟩ =>
    match ty.kind with
    | .fnDef defId =>
      some (args.map (operandEdge destination.local), some (destination.local, .call defId))
    | .other => none
  | .terminator ⟨.call _ _ _, _⟩ => none
  | .terminator ⟨.other, _⟩ => some ([], none)

-- `op` after the write `w`.
def writeOp (op : Local → NodeOp) (w : Local × NodeOp) (v : Local) : NodeOp :=
  if w.1 = v then w.2 else op v

namespace Graph

-- The graph over `n` nodes that holds `edges`, where node `v` carries `op v` and lists the ids
-- of the edges that leave it and of those that end at it.
def ofEdges (defId : DefId) (argc n : Nat) (edges : List GraphEdge) (op : Local → NodeOp) :
    Graph :=
  { defId, argc, edges
    nodes := (List.range n).map fun v =>
      { op := op v
        outEdges := edgeIds edges (·.src? == some v)
        inEdges := edgeIds edges (·.dst == v) } }

-- The graph `build_graph` should return for instructions with these effects: all their edges
-- in order, and on each node the op of the last write to it, `Nop` where there is none.
def expected (defId : DefId) (argc n : Nat)
    (effects : List (List GraphEdge × Option (Local × NodeOp))) : Graph :=
  ofEdges defId argc n (effects.flatMap (·.1))
    ((effects.filterMap (·.2)).foldl writeOp fun _ => .nop)

end Graph

section Lemmas

variable {α : Type}

theorem edgeIds_append (edges : List GraphEdge) (x : GraphEdge) (p : GraphEdge → Bool) :
    edgeIds (edges ++ [x]) p = edgeIds edges p ++ if p x then [edges.length] else [] := by
  unfold edgeIds
  rw [List.length_append, List.length_singleton, List.range_succ, List.filter_append]
  congr 1
  · exact List.filter_congr fun e he => by rw [List.getElem?_append_left (List.mem_range.mp he)]
  · by_cases hx : p x <;> simp [hx]

@[simp] theorem edgeIds_nil (p : GraphEdge → Bool) : edgeIds [] p = [] := rfl

-- A write through one index of a list built over `range n` rebuilds it with that index changed.
theorem map_range_modify (f : Nat → α) (g : α → α) (n i : Nat) :
    ((List.range n).map f).modify g i = (List.range n).map fun v => if i = v then g (f v) else f v := by
  refine List.ext_getElem? fun v => ?_
  rcases Nat.lt_or_ge v n with hv | hv
  · simp only [List.getElem?_modify, List.getElem?_map, List.getElem?_range hv]
    split_ifs <;> simp_all
  · have hnone : (List.range n)[v]? = none := List.getElem?_eq_none (by simpa using hv)
    simp [List.getElem?_modify, hnone]

end Lemmas

namespace Graph

section Steps

variable {defId : DefId} {argc n : Nat} {edges : List GraphEdge} {op : Local → NodeOp}

@[simp] theorem ofEdges_length : (ofEdges defId argc n edges op).nodes.length = n := by
  simp [ofEdges]

theorem new_eq_ofEdges : Graph.new defId argc n = ofEdges defId argc n [] fun _ => .nop := by
  simp [Graph.new, ofEdges, GraphNode.new, edgeIds_nil]

theorem addNodeEdge_ofEdges {src dst : Local} {o : EdgeOp} (hsrc : src < n) (hdst : dst < n) :
    (ofEdges defId argc n edges op).addNodeEdge src dst o =
      .ok (ofEdges defId argc n (edges ++ [.nodeEdge src dst o]) op, edges.length) := by
  rw [addNodeEdge_of_lt (by simpa using hsrc) (by simpa using hdst)]
  simp only [ofEdges, map_range_modify, edgeIds_append]
  congr
  funext v
  by_cases hd : dst = v <;> by_cases hs : src = v <;> simp [hd, hs, GraphEdge.dst, GraphEdge.src?]

theorem addConstEdge_ofEdges {text : String} {dst : Local} {o : EdgeOp} (hdst : dst < n) :
    (ofEdges defId argc n edges op).addConstEdge text dst o =
      .ok (ofEdges defId argc n (edges ++ [.constEdge text dst o]) op, edges.length) := by
  rw [addConstEdge_of_lt (by simpa using hdst)]
  simp only [ofEdges, map_range_modify, edgeIds_append]
  congr
  funext v
  by_cases hd : dst = v <;> simp [hd, GraphEdge.dst, GraphEdge.src?]

theorem addOperand_ofEdges {operand : Operand} {dst : Local} (hop : operand.localsBelow n)
    (hdst : dst < n) : (ofEdges defId argc n edges op).addOperand operand dst =
      .ok (ofEdges defId argc n (edges ++ [operandEdge dst operand]) op) := by
  cases operand with
  | copy place | move place =>
    have hsrc : place.local < n := by
      simp only [Operand.localsBelow, Place.localsBelow, Bool.and_eq_true, decide_eq_true_eq] at hop
      exact hop.1
    simp [addOperand, addNodeEdge_ofEdges hsrc hdst, operandEdge]
  | constant const => simp [addOperand, addConstEdge_ofEdges hdst, operandEdge]

theorem addOperands_ofEdges {operands : List Operand} {dst : Local}
    (hops : ∀ operand ∈ operands, operand.localsBelow n) (hdst : dst < n) :
    (ofEdges defId argc n edges op).addOperands dst operands =
      .ok (ofEdges defId argc n (edges ++ operands.map (operandEdge dst)) op) := by
  induction operands generalizing edges with
  | nil => simp [addOperands, pure, Except.pure]
  | cons operand rest ih =>
    rw [List.forall_mem_cons] at hops
    simp [addOperands, addOperand_ofEdges hops.1 hdst, ih hops.2]

theorem setOp_ofEdges {dst : Local} {o : NodeOp} (hdst : dst < n) :
    (ofEdges defId argc n edges op).setOp dst o =
      .ok (ofEdges defId argc n edges (writeOp op (dst, o))) := by
  rw [setOp, modifyNode_of_lt (by simpa using hdst)]
  simp only [ofEdges, map_range_modify]
  congr
  funext v
  by_cases hd : dst = v <;> simp [hd, writeOp]

-- One instruction: the graph stays of the declared form, with the instruction's edges appended
-- and its write applied, or the builder panics.
theorem addInstr_ofEdges {instr : Instr} (hl : instr.localsBelow n) :
    (ofEdges defId argc n edges op).addInstr instr = match effect instr with
      | some (es, w) => .ok (ofEdges defId argc n (edges ++ es) (w.elim op (writeOp op)))
      | none => .error .panic := by
  rcases instr with ⟨⟨place, rvalue⟩ | _, _⟩ | ⟨⟨func, args, destination⟩ | _, _⟩
  · simp only [Instr.localsBelow, Place.localsBelow, Bool.and_eq_true, decide_eq_true_eq] at hl
    have hdst := hl.1.1
    cases rvalue with
    | use operand =>
      simp [addInstr, addStatmToGraph, effect, addOperand_ofEdges hl.2 hdst,
        setOp_ofEdges hdst]
    | binaryOp binOp lhs rhs =>
      simp only [Rvalue.localsBelow, Bool.and_eq_true] at hl
      by_cases hb : binOp.isWithOverflow
      · simp [addInstr, addStatmToGraph, effect, hb, addOperand_ofEdges hl.2.1 hdst,
          addOperand_ofEdges hl.2.2 hdst, setOp_ofEdges hdst]
      · simp [addInstr, addStatmToGraph, effect, hb]; rfl
    | aggregate kind operands =>
      simp only [Rvalue.localsBelow, List.all_eq_true] at hl
      simp [addInstr, addStatmToGraph, effect, addOperands_ofEdges hl.2 hdst,
        setOp_ofEdges hdst]
    | _ => rfl
  · simp [addInstr, addStatmToGraph, effect, pure, Except.pure]
  · simp only [Instr.localsBelow, Bool.and_eq_true, List.all_eq_true] at hl
    have hdst : destination.local < n := by
      simp only [Place.localsBelow, Bool.and_eq_true, decide_eq_true_eq] at hl
      exact hl.2.1
    rcases func with _ | _ | (_ | _ | ⟨ty, text⟩)
    all_goals try rfl
    cases hk : ty.kind with
    | fnDef callee =>
      simp [addInstr, addTerminatorToGraph, effect, hk, addOperands_ofEdges hl.1.2 hdst,
        setOp_ofEdges hdst]
    | other => simp [addInstr, addTerminatorToGraph, effect, hk]; rfl
  · simp [addInstr, addTerminatorToGraph, effect, pure, Except.pure]

-- A run: from a graph of the declared form the loop panics at the first instruction it does not
-- translate, or ends with every instruction's edges appended and every write applied in order.
theorem translate_ofEdges {instrs : List Instr} (hl : ∀ instr ∈ instrs, instr.localsBelow n) :
    (ofEdges defId argc n edges op).translate instrs = match instrs.mapM effect with
      | some effects => .ok (ofEdges defId argc n (edges ++ effects.flatMap (·.1))
          ((effects.filterMap (·.2)).foldl writeOp op))
      | none => .error .panic := by
  induction instrs generalizing edges op with
  | nil => simp only [translate, List.mapM_nil]; simp [pure, Except.pure]
  | cons instr rest ih =>
    rw [List.forall_mem_cons] at hl
    simp only [translate, addInstr_ofEdges hl.1, List.mapM_cons]
    cases he : effect instr with
    | none => rfl
    | some eff =>
      obtain ⟨es, w⟩ := eff
      simp only [ok_bind, ih hl.2, Option.bind_eq_bind, Option.some_bind]
      cases rest.mapM effect with
      | none => rfl
      | some effects => cases w <;> simp [Option.elim]

end Steps

-- rap's `build_graph` over a body whose locals are all declared: the loop panics exactly when
-- some instruction is one it does not translate, and otherwise returns the declared graph of
-- the instructions' effects.
theorem translate_new_eq_expected {defId : DefId} {argc n : Nat} {instrs : List Instr}
    (hl : ∀ instr ∈ instrs, instr.localsBelow n) :
    (Graph.new defId argc n).translate instrs = match instrs.mapM effect with
      | some effects => .ok (expected defId argc n effects)
      | none => .error .panic := by
  rw [new_eq_ofEdges, translate_ofEdges hl]
  cases instrs.mapM effect <;> simp [expected]

-- `_2 = AddWithOverflow(copy _1, const 1_i32); _0 = f(move _2)`
def checkedAddCall : List Instr :=
  [.statement ⟨.assign ⟨2, []⟩ (.binaryOp .addWithOverflow (.copy ⟨1, []⟩)
      (.constant (.val ⟨.other, "i32"⟩ "1_i32"))), dummySp⟩,
    .terminator ⟨.call (.constant (.val ⟨.fnDef ⟨0, 1⟩, "fn(i32) -> i32 {f}"⟩ "f"))
      [.move ⟨2, []⟩] ⟨0, []⟩, dummySp⟩]

theorem translate_new_eq_expected_checkedAddCall :
    (∀ instr ∈ checkedAddCall, instr.localsBelow 3) ∧
    (Graph.new ⟨0, 0⟩ 1 3).translate checkedAddCall = match checkedAddCall.mapM effect with
      | some effects => .ok (expected ⟨0, 0⟩ 1 3 effects)
      | none => .error .panic :=
  ⟨by decide, translate_new_eq_expected (by decide)⟩

end Graph

end RapxDataflow.Rap
