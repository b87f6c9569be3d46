import Mathlib.Data.UInt
import RapxDataflow.Graph.Progress
import RapxDataflow.Graph.Trace

namespace RapxDataflow.Graph

-- A node's `seq`, and `0` past the end of `nodes`.
def seqOf (g : Graph) (v : Local) : UInt32 :=
  (g.nodes[v]?.map (·.seq)).getD 0

-- Where an instruction's `seq += 1` lands when it is applied to `g`: the last node of the
-- assigned place's projection chain, or the call's `destination.local`.
def dest (g : Graph) : Instr → Option Local
  | .statement ⟨.assign place _, _⟩ => some (if place.projection = [] then place.local
      else g.nodes.length + place.projection.length - 1)
  | .statement ⟨.other, _⟩ => none
  | .terminator ⟨.call _ _ destination, _⟩ => some destination.local
  | .terminator ⟨.other, _⟩ => none

-- The writes of one instruction with destination `d`, before its `seq += 1`: no node's seq
-- moves, no old node but `d` changes its op, and each new edge carries its end's seq and ends
-- at `d` or at a node from `base` on, one the instruction created.
structure Batch (base : Nat) (d : Local) (g g' : Graph) : Prop where
  length_le : g.nodes.length ≤ g'.nodes.length
  edges_prefix : g.edges <+: g'.edges
  seq_eq : ∀ v, g'.seqOf v = g.seqOf v
  op_eq : ∀ v, v ≠ d → v < g.nodes.length → g'.nodes[v]?.map (·.op) = g.nodes[v]?.map (·.op)
  new_edge : ∀ e edge, g.edges.length ≤ e → g'.edges[e]? = some edge →
    edge.seq = g.seqOf edge.dst ∧ edge.dst < g'.nodes.length ∧ (edge.dst = d ∨ base ≤ edge.dst)

section Lemmas

variable {l : List GraphNode}

theorem map_modify {β : Type} (p : GraphNode → β) (f : GraphNode → GraphNode)
    (hf : ∀ n, p (f n) = p n) (i v : Nat) : (l.modify f i)[v]?.map p = l[v]?.map p := by
  simp only [List.getElem?_modify, Option.map_eq_map, Option.map_map]
  split_ifs
  · exact Option.map_congr fun n _ => hf n
  · rfl

theorem seq_push_zero {n : GraphNode} (hn : n.seq = 0) (v : Nat) :
    ((l ++ [n])[v]?.map (·.seq)).getD 0 = (l[v]?.map (·.seq)).getD 0 := by
  rcases Nat.lt_or_ge v l.length with hv | hv
  · rw [List.getElem?_append_left hv]
  · rw [List.getElem?_append_right hv, List.getElem?_eq_none hv]
    rcases Nat.eq_or_lt_of_le hv with rfl | hv'
    · simp [hn]
    · rw [List.getElem?_eq_none (by simp; omega)]

theorem getElem?_of_prefix {l₁ l₂ : List GraphEdge} (h : l₁ <+: l₂) {n : Nat} (hn : n < l₁.length) :
    l₂[n]? = l₁[n]? := by
  obtain ⟨t, rfl⟩ := h
  exact List.getElem?_append_left hn

theorem getElem?_push_new {l : List GraphEdge} {x y : GraphEdge} {e : Nat} (he : l.length ≤ e)
    (h : (l ++ [x])[e]? = some y) : e = l.length ∧ x = y := by
  rcases getElem?_push_eq_some.mp h with h | h
  · exact absurd (List.getElem?_eq_some_iff.mp h).1 (by omega)
  · exact h

end Lemmas

section Batch

variable {base : Nat} {d : Local} {g g' g₁ g₂ g₃ : Graph}

theorem Batch.refl (g : Graph) : Batch base d g g :=
  ⟨le_rfl, List.prefix_refl _, fun _ => rfl, fun _ _ _ => rfl,
    fun _ _ he h => absurd (List.getElem?_eq_some_iff.mp h).1 (by omega)⟩

theorem Batch.trans (h₁ : Batch base d g₁ g₂) (h₂ : Batch base d g₂ g₃) : Batch base d g₁ g₃ := by
  refine ⟨h₁.length_le.trans h₂.length_le, h₁.edges_prefix.trans h₂.edges_prefix,
    fun v => (h₂.seq_eq v).trans (h₁.seq_eq v),
    fun v hv hlt => (h₂.op_eq v hv (hlt.trans_le h₁.length_le)).trans (h₁.op_eq v hv hlt),
    fun e edge he h => ?_⟩
  by_cases he₂ : e < g₂.edges.length
  · obtain ⟨hs, hlt, hd⟩ := h₁.new_edge e edge he (by rwa [← getElem?_of_prefix h₂.edges_prefix he₂])
    exact ⟨hs, hlt.trans_le h₂.length_le, hd⟩
  · obtain ⟨hs, hlt, hd⟩ := h₂.new_edge e edge (by omega) h
    exact ⟨hs.trans (h₁.seq_eq _), hlt, hd⟩

-- A write to one node that leaves its `seq` alone, and its op too unless the node is `d`.
theorem Batch.modifyNode {i : Local} {f : GraphNode → GraphNode} (h : g.modifyNode i f = .ok g')
    (hf : ∀ n, (f n).seq = n.seq) (hop : i = d ∨ ∀ n, (f n).op = n.op) : Batch base d g g' := by
  obtain ⟨-, rfl⟩ := modifyNode_eq_ok.mp h
  refine ⟨by simp, List.prefix_refl _, fun v => by simp only [seqOf, map_modify _ f hf],
    fun v hv _ => ?_, fun _ _ he h => absurd (List.getElem?_eq_some_iff.mp h).1 (by simpa using he)⟩
  rcases hop with rfl | hop
  · rw [List.getElem?_modify_ne _ _ (Ne.symm hv)]
  · exact map_modify _ f hop i v

theorem Batch.pushNode {n : GraphNode} (hn : n.seq = 0) : Batch base d g (g.pushNode n).1 :=
  ⟨by simp, List.prefix_refl _, fun v => seq_push_zero hn v,
    fun _ _ hlt => by simp [List.getElem?_append_left hlt],
    fun _ _ he h => absurd (List.getElem?_eq_some_iff.mp h).1 (by simpa using he)⟩

theorem Batch.addNodeEdge {src dst : Local} {op : EdgeOp} {e : EdgeIdx} (hd : dst = d ∨ base ≤ dst)
    (h : g.addNodeEdge src dst op = .ok (g', e)) : Batch base d g g' := by
  obtain ⟨n, hn, -, -, rfl⟩ := addNodeEdge_spec h
  refine ⟨by simp, List.prefix_append _ _, fun v => ?_, fun v _ _ => ?_, fun e edge he h => ?_⟩
  · simp only [seqOf, map_modify (·.seq) (·.pushOutEdge _) (fun _ => rfl),
      map_modify (·.seq) (·.pushInEdge _) (fun _ => rfl)]
  · simp only [map_modify (·.op) (·.pushOutEdge _) (fun _ => rfl),
      map_modify (·.op) (·.pushInEdge _) (fun _ => rfl)]
  · obtain ⟨-, rfl⟩ := getElem?_push_new he h
    exact ⟨by simp [seqOf, hn], by simpa using (List.getElem?_eq_some_iff.mp hn).1, hd⟩

theorem Batch.addConstEdge {dst : Local} {op : EdgeOp} {e : EdgeIdx} {text : String}
    (hd : dst = d ∨ base ≤ dst) (h : g.addConstEdge text dst op = .ok (g', e)) : Batch base d g g' := by
  obtain ⟨n, hn, -, rfl⟩ := addConstEdge_spec h
  refine ⟨by simp, List.prefix_append _ _, fun v => ?_, fun v _ hlt => ?_, fun e edge he h => ?_⟩
  · simp only [seqOf, map_modify (·.seq) (·.pushInEdge _) (fun _ => rfl)]
    exact seq_push_zero rfl v
  · simp only [map_modify (·.op) (·.pushInEdge _) (fun _ => rfl), List.getElem?_append_left hlt]
  · obtain ⟨-, rfl⟩ := getElem?_push_new he h
    refine ⟨by simp [seqOf, hn], ?_, hd⟩
    simpa using Nat.lt_succ_of_lt (List.getElem?_eq_some_iff.mp hn).1

theorem Batch.linkNode {src dst : Local} {op : EdgeOp} (hd : dst = d ∨ base ≤ dst)
    (h : Prod.fst <$> g.addNodeEdge src dst op = .ok g') : Batch base d g g' ∧ g'.nodes.length = g.nodes.length := by
  obtain ⟨e, h⟩ := fst_map_eq_ok.mp h
  refine ⟨.addNodeEdge hd h, ?_⟩
  obtain ⟨_, _, _, _, rfl⟩ := addNodeEdge_spec h
  simp

theorem Batch.setOp {o : NodeOp} (h : g.setOp d o = .ok g') : Batch base d g g' :=
  .modifyNode h (fun _ => rfl) (.inl rfl)

-- `parse_one_step` adds one node, and its edges end there.
theorem Batch.parseOneStep {src dst : Local} {elem : PlaceElem} (hb : base ≤ g.nodes.length)
    (h : g.parseOneStep src elem = .ok (g', dst)) :
    Batch base d g g' ∧ g'.nodes.length = g.nodes.length + 1 ∧ dst = g.nodes.length := by
  have link : ∀ {g₂ : Graph} {o : EdgeOp}, Prod.fst <$> (g.pushNode GraphNode.new).1.addNodeEdge src
      g.nodes.length o = .ok g₂ → Batch base d g g₂ ∧ g₂.nodes.length = g.nodes.length + 1 :=
    fun h => have h' := Batch.linkNode (.inr hb) h
      ⟨(Batch.pushNode rfl).trans h'.1, by simpa using h'.2⟩
  cases elem with
  | deref | field | constantIndex | subslice =>
    simp only [Graph.parseOneStep, pushNode_snd, bind_eq_ok, pure_eq_ok, Prod.mk.injEq] at h
    obtain ⟨_, h, rfl, rfl⟩ := h
    exact ⟨(link h).1, (link h).2, rfl⟩
  | downcast symbol =>
    cases symbol with
    | none => simp [Graph.parseOneStep, bind_eq_ok] at h
    | some name =>
      simp only [Graph.parseOneStep, pushNode_snd, bind_eq_ok, pure_eq_ok, Prod.mk.injEq] at h
      obtain ⟨_, rfl, _, h, rfl, rfl⟩ := h
      exact ⟨(link h).1, (link h).2, rfl⟩
  | index idx =>
    simp only [Graph.parseOneStep, pushNode_snd, bind_eq_ok, pure_eq_ok, Prod.mk.injEq] at h
    obtain ⟨⟨g₃, e⟩, h₁, _, h₂, rfl, rfl⟩ := h
    have h₁' := link (fst_map_eq_ok.mpr ⟨e, h₁⟩)
    have h₂' : Batch base d g₃ _ ∧ _ := Batch.linkNode (.inr hb) h₂
    exact ⟨h₁'.1.trans h₂'.1, h₂'.2.trans h₁'.2, rfl⟩
  | opaqueCast | subtype => simp [Graph.parseOneStep, bind_eq_ok] at h

theorem Batch.parseSteps {elems : List PlaceElem} {ret r : Local} (hb : base ≤ g.nodes.length)
    (h : g.parseSteps ret elems = .ok (g', r)) :
    Batch base d g g' ∧ g'.nodes.length = g.nodes.length + elems.length ∧
      r = if elems = [] then ret else g.nodes.length + elems.length - 1 := by
  induction elems generalizing g ret with
  | nil =>
    obtain ⟨rfl, rfl⟩ := Prod.mk.inj (pure_eq_ok.mp h)
    exact ⟨.refl g, rfl, rfl⟩
  | cons elem rest ih =>
    simp only [Graph.parseSteps, bind_eq_ok] at h
    obtain ⟨⟨g₁, r₁⟩, h₁, h₂⟩ := h
    obtain ⟨hb₁, hlen₁, rfl⟩ := Batch.parseOneStep hb h₁
    obtain ⟨hb₂, hlen₂, hr⟩ := ih (g := g₁) (by omega) h₂
    refine ⟨hb₁.trans hb₂, by simp [hlen₂, hlen₁]; omega, ?_⟩
    rw [hr, if_neg (List.cons_ne_nil _ _)]
    split_ifs with hrest <;> simp [hrest, hlen₁]

theorem Batch.parsePlace {place : Place} {r : Local} (hb : base ≤ g.nodes.length)
    (h : g.parsePlace place = .ok (g', r)) :
    Batch base d g g' ∧ g'.nodes.length = g.nodes.length + place.projection.length ∧
      r = if place.projection = [] then place.local
        else g.nodes.length + place.projection.length - 1 :=
  Batch.parseSteps hb h

theorem Batch.addPlaceEdge {place : Place} {dst : Local} {op : EdgeOp} (hb : base ≤ g.nodes.length)
    (hd : dst = d ∨ base ≤ dst) (h : g.addPlaceEdge place dst op = .ok g') : Batch base d g g' := by
  simp only [Graph.addPlaceEdge, bind_eq_ok] at h
  obtain ⟨⟨g₁, src⟩, h₁, h₂⟩ := h
  exact (Batch.parsePlace hb h₁).1.trans (Batch.linkNode hd h₂).1

theorem Batch.addOperand {operand : Operand} {dst : Local} (hb : base ≤ g.nodes.length)
    (hd : dst = d ∨ base ≤ dst) (h : g.addOperand operand dst = .ok g') : Batch base d g g' := by
  cases operand with
  | copy place | move place => exact Batch.addPlaceEdge hb hd h
  | constant c =>
    obtain ⟨e, h⟩ := fst_map_eq_ok.mp h
    exact Batch.addConstEdge hd h

theorem Batch.addOperands {operands : List Operand} {dst : Local} (hb : base ≤ g.nodes.length)
    (hd : dst = d ∨ base ≤ dst) (h : g.addOperands dst operands = .ok g') : Batch base d g g' := by
  induction operands generalizing g with
  | nil => exact (pure_eq_ok.mp h) ▸ .refl g
  | cons operand rest ih =>
    simp only [Graph.addOperands, bind_eq_ok] at h
    obtain ⟨g₁, h₁, h₂⟩ := h
    have hb₁ := Batch.addOperand hb hd h₁
    exact hb₁.trans (ih (hb.trans hb₁.length_le) h₂)

theorem Batch.addRvalue {rvalue : Rvalue} (hb : base ≤ g.nodes.length)
    (h : g.addRvalue rvalue d = .ok g') : Batch base d g g' := by
  cases rvalue <;> simp only [Graph.addRvalue, bind_eq_ok] at h
  case use | «repeat» | cast | unaryOp | shallowInitBox =>
    obtain ⟨g₁, h₁, h₂⟩ := h
    exact (Batch.addOperand hb (.inl rfl) h₁).trans (.setOp h₂)
  case ref | len | discriminant | copyForDeref =>
    obtain ⟨g₁, h₁, h₂⟩ := h
    exact (Batch.addPlaceEdge hb (.inl rfl) h₁).trans (.setOp h₂)
  case binaryOp =>
    obtain ⟨g₁, h₁, g₂, h₂, h₃⟩ := h
    have hb₁ := Batch.addOperand hb (.inl rfl) h₁
    exact hb₁.trans ((Batch.addOperand (hb.trans hb₁.length_le) (.inl rfl) h₂).trans (.setOp h₃))
  case aggregate kind _ =>
    obtain ⟨g₁, h₁, h₂⟩ := h
    cases hk : aggKind kind <;> simp only [hk, throw_ne_ok] at h₂
    exact (Batch.addOperands hb (.inl rfl) h₁).trans (.setOp h₂)
  case nullaryOp =>
    obtain ⟨g₁, h₁, h₂⟩ := h
    obtain ⟨e, h₁⟩ := fst_map_eq_ok.mp h₁
    exact (Batch.addConstEdge (.inl rfl) h₁).trans (.setOp h₂)
  case threadLocalRef | rawPtr => exact absurd h throw_ne_ok

theorem Batch.addCall {func : Operand} {args : List Operand} (hb : base ≤ g.nodes.length)
    (h : g.addCall func args d = .ok g') : Batch base d g g' := by
  cases func with
  | constant c =>
    cases c with
    | val ty text =>
      cases hk : ty.kind with
      | fnDef defId =>
        simp only [Graph.addCall, hk, bind_eq_ok] at h
        obtain ⟨g₁, h₁, h₂⟩ := h
        exact (Batch.addOperands hb (.inl rfl) h₁).trans (.setOp h₂)
      | other =>
        simp only [Graph.addCall, hk, pure_eq_ok] at h
        exact h ▸ .refl g
    | ty | unevaluated => exact (pure_eq_ok.mp h) ▸ .refl g
  | move place =>
    simp only [Graph.addCall, bind_eq_ok] at h
    obtain ⟨g₁, h₁, g₂, h₂, h₃⟩ := h
    have hb₁ := Batch.addOperand hb (.inl rfl) h₁
    exact hb₁.trans ((Batch.addOperands (hb.trans hb₁.length_le) (.inl rfl) h₂).trans (.setOp h₃))
  | copy place => exact absurd h throw_ne_ok

end Batch

-- One translated instruction with destination `d`: the destination's `seq` goes up by one and
-- no other node's moves, no other old node changes its op, and the new edges are those of a
-- `Batch` from the old node count.
structure InstrStep (g g' : Graph) (d : Option Local) : Prop where
  length_le : g.nodes.length ≤ g'.nodes.length
  edges_prefix : g.edges <+: g'.edges
  seq_eq : ∀ v, g'.seqOf v = g.seqOf v + if d = some v then 1 else 0
  op_eq : ∀ v, d ≠ some v → v < g.nodes.length →
    g'.nodes[v]?.map (·.op) = g.nodes[v]?.map (·.op)
  new_edge : ∀ e edge, g.edges.length ≤ e → g'.edges[e]? = some edge →
    edge.seq = g.seqOf edge.dst ∧ edge.dst < g'.nodes.length ∧
      (d = some edge.dst ∨ g.nodes.length ≤ edge.dst)

section Step

variable {g g' g₁ : Graph} {d : Local}

-- `self.nodes[dst].seq += 1`
theorem seqOf_bump (h : g.modifyNode d (fun n => { n with seq := n.seq + 1 }) = .ok g') (v : Local) :
    g'.seqOf v = g.seqOf v + if d = v then 1 else 0 := by
  obtain ⟨hd, rfl⟩ := modifyNode_eq_ok.mp h
  simp only [seqOf, List.getElem?_modify]
  split_ifs with hv
  · subst hv
    simp [List.getElem?_eq_getElem hd]
  · simp

theorem InstrStep.refl (g : Graph) : InstrStep g g none :=
  ⟨le_rfl, List.prefix_refl _, fun _ => by simp, fun _ _ _ => rfl,
    fun _ _ he h => absurd (List.getElem?_eq_some_iff.mp h).1 (by omega)⟩

theorem InstrStep.of_batch (hb : Batch g.nodes.length d g g₁)
    (h : g₁.modifyNode d (fun n => { n with seq := n.seq + 1 }) = .ok g') : InstrStep g g' (some d) := by
  have hseq := seqOf_bump h
  obtain ⟨-, rfl⟩ := modifyNode_eq_ok.mp h
  refine ⟨by simpa using hb.length_le, hb.edges_prefix, fun v => ?_, fun v hv hlt => ?_,
    fun e edge he h => ?_⟩
  · simp [hseq v, hb.seq_eq v]
  · rw [map_modify (·.op) (fun n => { n with seq := n.seq + 1 }) (fun _ => rfl),
      hb.op_eq v (fun h => hv (h ▸ rfl)) hlt]
  · obtain ⟨hs, hlt, hd⟩ := hb.new_edge e edge he h
    exact ⟨hs, by simpa using hlt, by simpa [eq_comm] using hd⟩

theorem InstrStep.addStatmToGraph {statement : Statement} (h : g.addStatmToGraph statement = .ok g') :
    InstrStep g g' (g.dest (.statement statement)) := by
  obtain ⟨kind, span⟩ := statement
  cases kind with
  | other => exact (pure_eq_ok.mp h) ▸ .refl g
  | assign place rvalue =>
    simp only [Graph.addStatmToGraph, bind_eq_ok] at h
    obtain ⟨⟨g₁, dst⟩, h₁, g₂, h₂, g₃, h₃, h₄⟩ := h
    have hp : Batch g.nodes.length dst g g₁ ∧ _ := Batch.parsePlace le_rfl h₁
    obtain ⟨hb₁, -, hdst⟩ := hp
    have hb₂ : Batch g.nodes.length dst g₁ g₂ := .modifyNode h₂ (fun _ => rfl) (.inr fun _ => rfl)
    simp only [dest, ← hdst]
    exact .of_batch (hb₁.trans (hb₂.trans (.addRvalue (hb₁.length_le.trans hb₂.length_le) h₃))) h₄

theorem InstrStep.addTerminatorToGraph {terminator : Terminator}
    (h : g.addTerminatorToGraph terminator = .ok g') :
    InstrStep g g' (g.dest (.terminator terminator)) := by
  obtain ⟨kind, span⟩ := terminator
  cases kind with
  | other => exact (pure_eq_ok.mp h) ▸ .refl g
  | call func args destination =>
    simp only [Graph.addTerminatorToGraph, bind_eq_ok] at h
    obtain ⟨g₁, h₁, g₂, h₂, h₃⟩ := h
    have hb₁ : Batch g.nodes.length destination.local g g₁ := .addCall le_rfl h₁
    exact .of_batch (hb₁.trans (.modifyNode h₂ (fun _ => rfl) (.inr fun _ => rfl))) h₃

theorem InstrStep.addInstr {instr : Instr} (h : g.addInstr instr = .ok g') :
    InstrStep g g' (g.dest instr) := by
  cases instr with
  | statement statement => exact .addStatmToGraph h
  | terminator terminator => exact .addTerminatorToGraph h

-- A destination is one of the body's locals or a node the instruction itself creates.
theorem dest_local {n : Nat} {instr : Instr} (hi : instr.localsBelow n) {v : Nat}
    (hv : g.dest instr = some v) : v < n ∨ g.nodes.length ≤ v := by
  match instr, hi, hv with
  | .statement ⟨.assign place _, _⟩, hi, hv =>
    simp only [Instr.localsBelow, Place.localsBelow, Bool.and_eq_true, decide_eq_true_eq] at hi
    simp only [dest, Option.some.injEq] at hv
    split_ifs at hv with hp
    · exact .inl (hv ▸ hi.1.1)
    · exact .inr (hv ▸ Nat.le_sub_one_of_lt (Nat.lt_add_of_pos_right (List.length_pos.mpr hp)))
  | .terminator ⟨.call _ _ destination, _⟩, hi, hv =>
    simp only [Instr.localsBelow, Place.localsBelow, Bool.and_eq_true, decide_eq_true_eq] at hi
    simp only [dest, Option.some.injEq] at hv
    exact .inl (hv ▸ hi.2.1)

end Step

-- How many of the first `k` instructions of a run wrote `v`.
def writes (gs : List Graph) (instrs : List Instr) (k : Nat) (v : Local) : Nat :=
  ((gs.zip instrs).take k).countP fun p => p.1.dest p.2 = some v

-- What the builder's `seq` numbers say about a run from `g`: each graph of the trace is the
-- translation of a prefix, a node's `seq` counts the writes to it, an edge carries the count of
-- writes to its end before the instruction that pushed it, and, while no count wraps around,
-- two edges into one node with one `seq` come from one instruction.
structure SeqLaw (g : Graph) (instrs : List Instr) (gs : List Graph) : Prop where
  prefix_eq : ∀ k gk, gs[k]? = some gk → g.translate (instrs.take k) = .ok gk
  seq_count : ∀ k gk, gs[k]? = some gk → ∀ v, gk.seqOf v = UInt32.ofNat (writes gs instrs k v)
  edge_seq : ∀ k e edge, CreatedAt gs k e edge → edge.seq = UInt32.ofNat (writes gs instrs k edge.dst)
  same_instr : (∀ v, writes gs instrs instrs.length v < 2 ^ 32) → ∀ j k e f edge₁ edge₂,
    CreatedAt gs j e edge₁ → CreatedAt gs k f edge₂ → edge₁.dst = edge₂.dst →
      edge₁.seq = edge₂.seq → j = k

section Run

variable {g gk gk' : Graph} {instrs : List Instr} {gs : List Graph} {j k : Nat} {v : Local}

theorem uint32_ofNat_add (a b : Nat) : UInt32.ofNat (a + b) = UInt32.ofNat a + UInt32.ofNat b := by
  apply UInt32.eq_of_toBitVec_eq
  simp [UInt32.add_def, UInt32.ofNat, BitVec.ofNat_add]

theorem uint32_ofNat_inj {a b : Nat} (ha : a < 2 ^ 32) (hb : b < 2 ^ 32)
    (h : UInt32.ofNat a = UInt32.ofNat b) : a = b := by
  rw [← UInt32.toNat_ofNat_of_lt ha, ← UInt32.toNat_ofNat_of_lt hb, h]

@[simp] theorem writes_zero : writes gs instrs 0 v = 0 := by
  simp [writes]

theorem writes_succ {instr : Instr} (hk : gs[k]? = some gk) (hi : instrs[k]? = some instr) :
    writes gs instrs (k + 1) v = writes gs instrs k v + if gk.dest instr = some v then 1 else 0 := by
  have hz : (gs.zip instrs)[k]? = some (gk, instr) := List.getElem?_zip_eq_some.mpr ⟨hk, hi⟩
  by_cases hd : gk.dest instr = some v <;> simp [writes, List.take_succ, hz, List.countP_append, hd]

theorem writes_mono (hjk : j ≤ k) : writes gs instrs j v ≤ writes gs instrs k v :=
  (List.take_prefix_take_left _ hjk).countP_le _

theorem writes_le_length (h : g.trace instrs = .ok gs) (hk : gs[k + 1]? = some gk') :
    writes gs instrs k v ≤ writes gs instrs instrs.length v := by
  have := (List.getElem?_eq_some_iff.mp hk).1
  exact writes_mono (by rw [trace_length h] at this; omega)

theorem seqOf_new (defId : DefId) (span : Span) (argc n : Nat) (v : Local) :
    (Graph.new defId span argc n).seqOf v = 0 := by
  simp only [seqOf, Graph.new, List.getElem?_replicate]
  split_ifs <;> rfl

-- The run lemma: a node's `seq` is its `seq` at the start plus the writes to it so far.
theorem trace_seqOf (h : g.trace instrs = .ok gs) (hk : gs[k]? = some gk) (v : Local) :
    gk.seqOf v = g.seqOf v + UInt32.ofNat (writes gs instrs k v) := by
  induction k generalizing gk with
  | zero =>
    obtain rfl := Option.some.inj ((trace_head h).symm.trans hk)
    simp
  | succ k ih =>
    obtain ⟨gk₀, hk₀⟩ := exists_getElem?_of_succ hk
    obtain ⟨instr, hi, hstep⟩ := trace_step h hk₀ hk
    rw [(InstrStep.addInstr hstep).seq_eq, ih hk₀, writes_succ hk₀ hi, uint32_ofNat_add, add_assoc]
    split_ifs <;> rfl

-- An edge pushed at step `k` carries the `seq` its end had before that step.
theorem trace_edge_seq {e : Nat} {edge : GraphEdge} (h : g.trace instrs = .ok gs)
    (hc : CreatedAt gs k e edge) :
    edge.seq = g.seqOf edge.dst + UInt32.ofNat (writes gs instrs k edge.dst) := by
  obtain ⟨gk, gk', hk, hk', he, hedge⟩ := hc
  obtain ⟨instr, -, hstep⟩ := trace_step h hk hk'
  rw [((InstrStep.addInstr hstep).new_edge e edge he hedge).1, trace_seqOf h hk]

theorem trace_nodes_mono (h : g.trace instrs = .ok gs) (hjk : j ≤ k) {gj : Graph}
    (hj : gs[j]? = some gj) (hk : gs[k]? = some gk) : gj.nodes.length ≤ gk.nodes.length :=
  trace_chain (R := fun a b => a.nodes.length ≤ b.nodes.length) (fun _ => le_rfl)
    (fun h₁ h₂ => h₁.trans h₂) (fun _ h => (InstrStep.addInstr h).length_le) h hjk hj hk

-- Two edges into one node with one `seq`, pushed at steps `j < k`, cannot be: if step `j`
-- wrote their end then the count grew in between, and otherwise that end was a node step `j`
-- created, which no later step writes to or draws an edge into.
theorem created_lt_false {n : Nat} (h : g.trace instrs = .ok gs) (hn : n ≤ g.nodes.length)
    (hi : ∀ instr ∈ instrs, instr.localsBelow n)
    (hbound : ∀ v, writes gs instrs instrs.length v < 2 ^ 32) {e f : Nat} {edge₁ edge₂ : GraphEdge}
    (hjk : j < k) (hj : CreatedAt gs j e edge₁) (hk : CreatedAt gs k f edge₂)
    (hdst : edge₁.dst = edge₂.dst) (hseq : edge₁.seq = edge₂.seq) : False := by
  obtain ⟨gj, gj', hgj, hgj', he, hedge₁⟩ := hj
  obtain ⟨gk, gk', hgk, hgk', hf, hedge₂⟩ := hk
  obtain ⟨i, hij, hsj⟩ := trace_step h hgj hgj'
  obtain ⟨i', hik, hsk⟩ := trace_step h hgk hgk'
  obtain ⟨-, hlt₁, hd₁⟩ := (InstrStep.addInstr hsj).new_edge e edge₁ he hedge₁
  dsimp only [Local] at hlt₁
  obtain ⟨-, -, hd₂⟩ := (InstrStep.addInstr hsk).new_edge f edge₂ hf hedge₂
  rw [← hdst] at hd₂
  have hlen : gj'.nodes.length ≤ gk.nodes.length := trace_nodes_mono h hjk hgj' hgk
  have hn' : n ≤ gj.nodes.length := hn.trans (trace_nodes_mono h (Nat.zero_le j) (trace_head h) hgj)
  rcases hd₁ with hw | hfresh
  · -- step `j` wrote the common end `d`
    have hcount : writes gs instrs (j + 1) edge₁.dst ≤ writes gs instrs k edge₁.dst := writes_mono hjk
    rw [writes_succ hgj hij, if_pos hw] at hcount
    have heq := trace_edge_seq h ⟨gk, gk', hgk, hgk', hf, hedge₂⟩
    rw [← hdst, ← hseq, trace_edge_seq h ⟨gj, gj', hgj, hgj', he, hedge₁⟩, add_right_inj] at heq
    have := uint32_ofNat_inj (lt_of_le_of_lt (writes_le_length h hgj') (hbound _))
      (lt_of_le_of_lt (writes_le_length h hgk') (hbound _)) heq
    omega
  · rcases hd₂ with hw | hfresh'
    · rcases dest_local (hi i' (List.mem_iff_getElem?.mpr ⟨k, hik⟩)) hw <;> omega
    · omega

theorem trace_same_instr {n : Nat} (h : g.trace instrs = .ok gs) (hn : n ≤ g.nodes.length)
    (hi : ∀ instr ∈ instrs, instr.localsBelow n)
    (hbound : ∀ v, writes gs instrs instrs.length v < 2 ^ 32) {e f : Nat} {edge₁ edge₂ : GraphEdge}
    (hj : CreatedAt gs j e edge₁) (hk : CreatedAt gs k f edge₂)
    (hdst : edge₁.dst = edge₂.dst) (hseq : edge₁.seq = edge₂.seq) : j = k := by
  rcases lt_trichotomy j k with hjk | rfl | hkj
  · exact (created_lt_false h hn hi hbound hjk hj hk hdst hseq).elim
  · rfl
  · exact (created_lt_false h hn hi hbound hkj hk hj hdst.symm hseq.symm).elim

end Run

-- From `Graph::new`, a run of supported instructions exists and obeys the `seq` law, with
-- every count taken modulo `2 ^ 32`.
theorem seq_counts_writes {instrs : List Instr} {defId : DefId} {span : Span} {argc n : Nat}
    (hs : ∀ instr ∈ instrs, instr.supported) (hi : ∀ instr ∈ instrs, instr.localsBelow n) :
    ∃ gs, (Graph.new defId span argc n).trace instrs = .ok gs ∧
      SeqLaw (Graph.new defId span argc n) instrs gs := by
  obtain ⟨g', hg'⟩ := (wellFormed_new defId span argc n).translate_ok hs hi
  obtain ⟨gs, hgs, -⟩ := trace_of_translate hg'
  refine ⟨gs, hgs, fun k gk hk => trace_translate hgs hk, fun k gk hk v => ?_,
    fun k e edge hc => ?_, fun hbound j k e f edge₁ edge₂ =>
      trace_same_instr hgs (by simp [Graph.new]) hi hbound⟩
  · rw [trace_seqOf hgs hk, seqOf_new, zero_add]
  · rw [trace_edge_seq hgs hc, seqOf_new, zero_add]

-- `_0 = copy _1`, translated over and over.
def copyOne : Instr :=
  .statement ⟨.assign ⟨0, []⟩ (.use (.copy ⟨1, []⟩)), dummySp⟩

theorem seq_counts_writes_copyTwice :
    (∀ instr ∈ [copyOne, copyOne], instr.supported) ∧
    (∀ instr ∈ [copyOne, copyOne], instr.localsBelow 2) ∧
    ∃ gs, (Graph.new ⟨0, 0⟩ dummySp 0 2).trace [copyOne, copyOne] = .ok gs ∧
      SeqLaw (Graph.new ⟨0, 0⟩ dummySp 0 2) [copyOne, copyOne] gs :=
  ⟨by decide, by decide, seq_counts_writes (by decide) (by decide)⟩

-- The graph after `k` copies: node 0 has been written `k` times and edge `j` is the `j`-th copy.
def copyGraph (k : Nat) : Graph where
  defId := ⟨0, 0⟩
  span := dummySp
  argc := 0
  nodes := [⟨if k = 0 then .nop else .use, dummySp, UInt32.ofNat k, [], List.range k⟩,
    ⟨.nop, dummySp, 0, List.range k, []⟩]
  edges := (List.range k).map fun j => ⟨1, 0, .copy, UInt32.ofNat j⟩
  nLocals := 2

theorem copyGraph_addInstr (k : Nat) : (copyGraph k).addInstr copyOne = .ok (copyGraph (k + 1)) := by
  simp [copyGraph, copyOne, addInstr, addStatmToGraph, parsePlace, parseSteps, addRvalue,
    addOperand, addNodeEdge, modifyNode, node, pushEdge, setOp, GraphNode.pushInEdge,
    GraphNode.pushOutEdge, List.range_succ, uint32_ofNat_add]

theorem trace_copyGraph (k m : Nat) :
    (copyGraph k).trace (List.replicate m copyOne) =
      .ok ((List.range (m + 1)).map fun j => copyGraph (k + j)) := by
  induction m generalizing k with
  | zero => rfl
  | succ m ih =>
    rw [List.replicate_succ, trace_cons_eq_ok.mpr ⟨_, copyGraph_addInstr k, _, ih (k + 1), rfl⟩,
      List.range_succ_eq_map (m + 1)]
    simp [Nat.add_assoc, Nat.add_comm 1]

theorem writes_copy {m k : Nat} (hk : k ≤ m) :
    writes ((List.range (m + 1)).map copyGraph) (List.replicate m copyOne) k 0 = k := by
  rw [writes, List.countP_eq_length.mpr]
  · simp [hk]
  · intro p hp
    rw [List.eq_of_mem_replicate (List.of_mem_zip (List.mem_of_mem_take hp)).2]
    rfl

def copyLoop : List Instr := List.replicate (2 ^ 32 + 1) copyOne

def copyTrace : List Graph := (List.range (2 ^ 32 + 2)).map copyGraph

-- `2 ^ 32 + 1` writes leave node 0 at `seq = 1`, and the first and the last copy push edges
-- into node 0 that both carry `seq = 0`.
theorem seq_wraps_on_repeated_copy :
    (∀ instr ∈ copyLoop, instr.supported ∧ instr.localsBelow 2) ∧
    (Graph.new ⟨0, 0⟩ dummySp 0 2).trace copyLoop = .ok copyTrace ∧
    copyTrace[2 ^ 32 + 1]? = some (copyGraph (2 ^ 32 + 1)) ∧
    writes copyTrace copyLoop (2 ^ 32 + 1) 0 = 2 ^ 32 + 1 ∧
    (copyGraph (2 ^ 32 + 1)).seqOf 0 = 1 ∧
    CreatedAt copyTrace 0 0 ⟨1, 0, .copy, 0⟩ ∧
    CreatedAt copyTrace (2 ^ 32) (2 ^ 32) ⟨1, 0, .copy, 0⟩ := by
  have hgs : ∀ k, k < 2 ^ 32 + 2 → copyTrace[k]? = some (copyGraph k) := fun k hk => by
    simp only [copyTrace, List.getElem?_map, List.getElem?_range hk, Option.map_some']
  refine ⟨fun instr hi => (List.eq_of_mem_replicate hi) ▸ by decide, ?_, hgs _ (by decide),
    writes_copy le_rfl, rfl, ⟨_, _, hgs 0 (by decide), hgs 1 (by decide), le_rfl, by decide⟩,
    ⟨_, _, hgs _ (by decide), hgs _ (by decide), by simp [copyGraph], ?_⟩⟩
  · have h := trace_copyGraph 0 (2 ^ 32 + 1)
    simp only [Nat.zero_add] at h
    exact h
  · simp only [copyGraph, List.getElem?_map, List.getElem?_range (show 2 ^ 32 < 2 ^ 32 + 1 by decide)]
    rfl

end RapxDataflow.Graph
