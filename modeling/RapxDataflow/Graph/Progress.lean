import RapxDataflow.Graph.WellFormed

namespace RapxDataflow

-- The shapes the builder of `graph.rs` translates without reaching `todo!()` or unwrapping
-- the `None` name of a downcast.
def PlaceElem.supported : PlaceElem → Bool
  | .downcast none | .opaqueCast | .subtype => false
  | _ => true

def Place.supported (place : Place) : Bool :=
  place.projection.all (·.supported)

def Operand.supported : Operand → Bool
  | .copy place | .move place => place.supported
  | .constant _ => true

def Rvalue.supported : Rvalue → Bool
  | .use operand | .repeat operand | .cast operand | .unaryOp operand
  | .shallowInitBox operand => operand.supported
  | .ref _ place | .len place | .discriminant place | .copyForDeref place => place.supported
  | .binaryOp _ lhs rhs => lhs.supported && rhs.supported
  | .aggregate kind operands => (Graph.aggKind kind).isSome && operands.all (·.supported)
  | .nullaryOp _ => true
  | .threadLocalRef _ | .rawPtr _ => false

-- A callee `add_terminator_to_graph` handles: a constant or a moved operand.
def Operand.supportedCallee : Operand → Bool
  | .copy _ => false
  | .move place => place.supported
  | .constant _ => true

def Instr.supported : Instr → Bool
  | .statement ⟨.assign place rvalue, _⟩ => place.supported && rvalue.supported
  | .statement ⟨.other, _⟩ => true
  | .terminator ⟨.call func args _, _⟩ => func.supportedCallee && args.all (·.supported)
  | .terminator ⟨.other, _⟩ => true

namespace Graph

section Progress

variable {g : Graph} {src dst : Local}

theorem addNodeEdge_ok (op : EdgeOp) (hsrc : src < g.nodes.length) (hdst : dst < g.nodes.length) :
    ∃ r, g.addNodeEdge src dst op = .ok r := by
  simp [addNodeEdge, modifyNode, node_of_lt hdst, hsrc, hdst]

theorem addConstEdge_ok (text : String) (op : EdgeOp) (hdst : dst < g.nodes.length) :
    ∃ r, g.addConstEdge text dst op = .ok r := by
  simp [addConstEdge, modifyNode, node_of_lt hdst, hdst, Nat.lt_succ_of_lt]

theorem setOp_ok (o : NodeOp) (hdst : dst < g.nodes.length) : ∃ r, g.setOp dst o = .ok r := by
  simp [setOp, modifyNode, hdst]

theorem WellFormed.parseOneStep_ok (hg : g.WellFormed) (hsrc : g.Plain src) {elem : PlaceElem}
    (hs : elem.supported) (helem : elem.localsBelow g.nLocals) :
    ∃ r, g.parseOneStep src elem = .ok r := by
  obtain ⟨hg₁, hgrow₁, hnew⟩ := hg.new_plain
  have hsrc₁ := (hgrow₁.plain _ hsrc).lt
  have link : ∀ o, ∃ r, (do
      let g' ← Prod.fst <$> (g.pushNode GraphNode.new).1.addNodeEdge src g.nodes.length o
      pure (g', g.nodes.length) : Except Fault (Graph × Local)) = .ok r := fun o => by
    obtain ⟨r, hr⟩ := addNodeEdge_ok o hsrc₁ hnew.lt
    simp only [hr, map_ok, ok_bind]
    exact ⟨_, rfl⟩
  cases elem with
  | deref => exact link _
  | field => exact link _
  | constantIndex => exact link _
  | subslice => exact link _
  | downcast symbol =>
    cases symbol with
    | none => simp [PlaceElem.supported] at hs
    | some name => exact link _
  | index idx =>
    obtain ⟨⟨g₃, e⟩, h₃⟩ := addNodeEdge_ok .index hsrc₁ hnew.lt
    obtain ⟨-, hgrow₃⟩ := hg₁.addNodeEdge (hgrow₁.plain _ hsrc) hnew h₃
    have hidx := hgrow₃.plain _ (hgrow₁.plain _
      (hg.locals_plain idx (by simpa [PlaceElem.localsBelow] using helem)))
    obtain ⟨r, hr⟩ := addNodeEdge_ok .index hidx.lt (hgrow₃.plain _ hnew).lt
    simp only [Graph.parseOneStep, pushNode_snd, h₃, hr, map_ok, ok_bind]
    exact ⟨_, rfl⟩
  | opaqueCast | subtype => simp [PlaceElem.supported] at hs

theorem WellFormed.parseSteps_ok {elems : List PlaceElem} (hg : g.WellFormed) {ret : Local}
    (hret : g.Plain ret) (hs : elems.all (·.supported)) (helems : elems.all (·.localsBelow g.nLocals)) :
    ∃ r, g.parseSteps ret elems = .ok r := by
  induction elems generalizing g ret with
  | nil => exact ⟨_, rfl⟩
  | cons elem rest ih =>
    simp only [List.all_cons, Bool.and_eq_true] at hs helems
    obtain ⟨⟨g₁, r₁⟩, h₁⟩ := hg.parseOneStep_ok hret hs.1 helems.1
    obtain ⟨hg₁, hgrow₁, hr₁⟩ := hg.parseOneStep hret helems.1 h₁
    exact exists_bind_ok h₁ (ih hg₁ hr₁ hs.2 (hgrow₁.nLocals_eq ▸ helems.2))

theorem WellFormed.parsePlace_ok (hg : g.WellFormed) {place : Place} (hs : place.supported)
    (hplace : place.localsBelow g.nLocals) : ∃ r, g.parsePlace place = .ok r := by
  simp only [Place.localsBelow, Bool.and_eq_true, decide_eq_true_eq] at hplace
  exact hg.parseSteps_ok (hg.locals_plain _ hplace.1) hs hplace.2

theorem WellFormed.addPlaceEdge_ok (hg : g.WellFormed) (hdst : g.Plain dst) {place : Place}
    (op : EdgeOp) (hs : place.supported) (hplace : place.localsBelow g.nLocals) :
    ∃ r, g.addPlaceEdge place dst op = .ok r := by
  obtain ⟨⟨g₁, src⟩, h₁⟩ := hg.parsePlace_ok hs hplace
  obtain ⟨-, hgrow₁, hsrc⟩ := hg.parsePlace hplace h₁
  obtain ⟨r, hr⟩ := addNodeEdge_ok op hsrc.lt (hgrow₁.plain _ hdst).lt
  simp only [Graph.addPlaceEdge, h₁, hr, map_ok, ok_bind]
  exact ⟨_, rfl⟩

theorem WellFormed.addOperand_ok (hg : g.WellFormed) (hdst : g.Plain dst) {operand : Operand}
    (hs : operand.supported) (hop : operand.localsBelow g.nLocals) :
    ∃ r, g.addOperand operand dst = .ok r := by
  cases operand with
  | copy place | move place => exact hg.addPlaceEdge_ok hdst _ hs hop
  | constant c =>
    obtain ⟨r, hr⟩ := addConstEdge_ok c.text .const hdst.lt
    simp only [Graph.addOperand, hr, map_ok]
    exact ⟨_, rfl⟩

theorem WellFormed.addOperands_ok {operands : List Operand} (hg : g.WellFormed) (hdst : g.Plain dst)
    (hs : operands.all (·.supported)) (hops : operands.all (·.localsBelow g.nLocals)) :
    ∃ r, g.addOperands dst operands = .ok r := by
  induction operands generalizing g with
  | nil => exact ⟨_, rfl⟩
  | cons operand rest ih =>
    simp only [List.all_cons, Bool.and_eq_true] at hs hops
    obtain ⟨g₁, h₁⟩ := hg.addOperand_ok hdst hs.1 hops.1
    obtain ⟨hg₁, hgrow₁⟩ := hg.addOperand hdst hops.1 h₁
    exact exists_bind_ok h₁ (ih hg₁ (hgrow₁.plain _ hdst) hs.2 (hgrow₁.nLocals_eq ▸ hops.2))

-- The last write of a translation step succeeds on a graph the step has grown.
theorem setOp_ok_after {g₁ : Graph} (h₁ : g₁.WellFormed ∧ g.Grows g₁) (hdst : g.Plain dst)
    (o : NodeOp) : ∃ r, g₁.setOp dst o = .ok r :=
  setOp_ok o (h₁.2.plain _ hdst).lt

theorem WellFormed.addRvalue_ok (hg : g.WellFormed) (hdst : g.Plain dst) {rvalue : Rvalue}
    (hs : rvalue.supported) (hrv : rvalue.localsBelow g.nLocals) :
    ∃ r, g.addRvalue rvalue dst = .ok r := by
  cases rvalue <;> simp only [Rvalue.supported, Rvalue.localsBelow, Bool.and_eq_true] at hs hrv
  case use | «repeat» | cast | unaryOp | shallowInitBox =>
    obtain ⟨g₁, h₁⟩ := hg.addOperand_ok hdst hs hrv
    exact exists_bind_ok h₁ (setOp_ok_after (hg.addOperand hdst hrv h₁) hdst _)
  case ref | len | discriminant | copyForDeref =>
    obtain ⟨g₁, h₁⟩ := hg.addPlaceEdge_ok hdst _ hs hrv
    exact exists_bind_ok h₁ (setOp_ok_after (hg.addPlaceEdge hdst hrv h₁) hdst _)
  case binaryOp =>
    obtain ⟨g₁, h₁⟩ := hg.addOperand_ok hdst hs.1 hrv.1
    obtain ⟨hg₁, hgrow₁⟩ := hg.addOperand hdst hrv.1 h₁
    obtain ⟨g₂, h₂⟩ := hg₁.addOperand_ok (hgrow₁.plain _ hdst) hs.2 (hgrow₁.nLocals_eq ▸ hrv.2)
    obtain ⟨hg₂, hgrow₂⟩ := hg₁.addOperand (hgrow₁.plain _ hdst) (hgrow₁.nLocals_eq ▸ hrv.2) h₂
    exact exists_bind_ok h₁ (exists_bind_ok h₂ (setOp_ok_after ⟨hg₂, hgrow₁.trans hgrow₂⟩ hdst _))
  case aggregate kind _ =>
    obtain ⟨g₁, h₁⟩ := hg.addOperands_ok hdst hs.2 hrv
    obtain ⟨k, hk⟩ := Option.isSome_iff_exists.mp hs.1
    refine exists_bind_ok h₁ ?_
    simp only [hk]
    exact setOp_ok_after (hg.addOperands hdst hrv h₁) hdst _
  case nullaryOp ty =>
    obtain ⟨r, hr⟩ := addConstEdge_ok ty.text .nop hdst.lt
    obtain ⟨hg₁, hgrow₁⟩ := hg.addConstEdge hdst hr
    simp only [Graph.addRvalue, hr, map_ok, ok_bind]
    exact setOp_ok_after ⟨hg₁, hgrow₁⟩ hdst _
  case threadLocalRef | rawPtr => exact absurd hs Bool.false_ne_true

theorem WellFormed.addStatmToGraph_ok (hg : g.WellFormed) {statement : Statement}
    (hs : (Instr.statement statement).supported)
    (hl : (Instr.statement statement).localsBelow g.nLocals) :
    ∃ r, g.addStatmToGraph statement = .ok r := by
  obtain ⟨kind, span⟩ := statement
  cases kind with
  | other => exact ⟨_, rfl⟩
  | assign place rvalue =>
    simp only [Instr.supported, Instr.localsBelow, Bool.and_eq_true] at hs hl
    obtain ⟨⟨g₁, d⟩, h₁⟩ := hg.parsePlace_ok hs.1 hl.1
    obtain ⟨hg₁, hgrow₁, hd⟩ := hg.parsePlace hl.1 h₁
    have h₂ : g₁.modifyNode d (fun n => { n with span }) =
        .ok { g₁ with nodes := g₁.nodes.modify (fun n => { n with span }) d } := modifyNode_of_lt hd.lt
    obtain ⟨hg₂, hgrow₂⟩ := hg₁.modifyNode h₂ fun _ _ => ⟨rfl, rfl, rfl⟩
    have hrv : rvalue.localsBelow _ := (hgrow₁.trans hgrow₂).nLocals_eq ▸ hl.2
    obtain ⟨g₃, h₃⟩ := hg₂.addRvalue_ok (hgrow₂.plain _ hd) hs.2 hrv
    obtain ⟨-, hgrow₃⟩ := hg₂.addRvalue (hgrow₂.plain _ hd) hrv h₃
    exact exists_bind_ok h₁ (exists_bind_ok h₂ (exists_bind_ok h₃
      ⟨_, modifyNode_of_lt (hgrow₃.plain _ (hgrow₂.plain _ hd)).lt⟩))

theorem WellFormed.addCall_ok (hg : g.WellFormed) (hdst : g.Plain dst) {func : Operand}
    {args : List Operand} (hs : func.supportedCallee)
    (hargs : args.all (·.supported)) (hfunc : func.localsBelow g.nLocals)
    (hargsl : args.all (·.localsBelow g.nLocals)) : ∃ r, g.addCall func args dst = .ok r := by
  cases func with
  | constant c =>
    cases c with
    | val ty text =>
      cases hk : ty.kind with
      | fnDef defId =>
        obtain ⟨g₁, h₁⟩ := hg.addOperands_ok hdst hargs hargsl
        simp only [Graph.addCall, hk]
        exact exists_bind_ok h₁ (setOp_ok_after (hg.addOperands hdst hargsl h₁) hdst _)
      | other => simp only [Graph.addCall, hk]; exact ⟨_, rfl⟩
    | ty | unevaluated => exact ⟨_, rfl⟩
  | move place =>
    obtain ⟨g₁, h₁⟩ := hg.addOperand_ok hdst (show (Operand.move place).supported from hs) hfunc
    obtain ⟨hg₁, hgrow₁⟩ := hg.addOperand hdst hfunc h₁
    have hargsl₁ := hgrow₁.nLocals_eq ▸ hargsl
    obtain ⟨g₂, h₂⟩ := hg₁.addOperands_ok (hgrow₁.plain _ hdst) hargs hargsl₁
    obtain ⟨hg₂, hgrow₂⟩ := hg₁.addOperands (hgrow₁.plain _ hdst) hargsl₁ h₂
    exact exists_bind_ok h₁ (exists_bind_ok h₂ (setOp_ok_after ⟨hg₂, hgrow₁.trans hgrow₂⟩ hdst _))
  | copy place => exact absurd hs Bool.false_ne_true

theorem WellFormed.addTerminatorToGraph_ok (hg : g.WellFormed) {terminator : Terminator}
    (hs : (Instr.terminator terminator).supported)
    (hl : (Instr.terminator terminator).localsBelow g.nLocals) :
    ∃ r, g.addTerminatorToGraph terminator = .ok r := by
  obtain ⟨kind, span⟩ := terminator
  cases kind with
  | other => exact ⟨_, rfl⟩
  | call func args destination =>
    simp only [Instr.localsBelow, Bool.and_eq_true, Place.localsBelow, decide_eq_true_eq] at hl
    simp only [Instr.supported, Bool.and_eq_true] at hs
    have hdst := hg.locals_plain _ hl.2.1
    obtain ⟨g₁, h₁⟩ := hg.addCall_ok hdst hs.1 hs.2 hl.1.1 hl.1.2
    obtain ⟨-, hgrow₁⟩ := hg.addCall hdst hl.1.1 hl.1.2 h₁
    have h₂ : g₁.modifyNode destination.local (fun n => { n with span }) =
        .ok { g₁ with nodes := g₁.nodes.modify (fun n => { n with span }) destination.local } :=
      modifyNode_of_lt (hgrow₁.plain _ hdst).lt
    exact exists_bind_ok h₁ (exists_bind_ok h₂ ⟨_, modifyNode_of_lt (by simpa using (hgrow₁.plain _ hdst).lt)⟩)

theorem WellFormed.translate_ok {instrs : List Instr} (hg : g.WellFormed)
    (hs : ∀ instr ∈ instrs, instr.supported) (hi : ∀ instr ∈ instrs, instr.localsBelow g.nLocals) :
    ∃ r, g.translate instrs = .ok r := by
  induction instrs generalizing g with
  | nil => exact ⟨_, rfl⟩
  | cons instr rest ih =>
    have hs₁ := hs instr (List.mem_cons_self _ _)
    have hi₁ := hi instr (List.mem_cons_self _ _)
    obtain ⟨g₁, h₁⟩ : ∃ r, g.addInstr instr = .ok r := by
      cases instr with
      | statement statement => exact hg.addStatmToGraph_ok hs₁ hi₁
      | terminator terminator => exact hg.addTerminatorToGraph_ok hs₁ hi₁
    obtain ⟨hg₁, hgrow₁⟩ := hg.addInstr hi₁ h₁
    exact exists_bind_ok h₁ (ih hg₁ (fun i h => hs i (List.mem_cons_of_mem _ h))
      fun i h => hgrow₁.nLocals_eq ▸ hi i (List.mem_cons_of_mem _ h))

end Progress

end Graph

end RapxDataflow
