import RapxDataflow.Graph.Progress

namespace RapxDataflow

-- `parse_place` is total on a chain when each step's index local already has a node.
theorem PlaceElem.localsBelow_mono {elem : PlaceElem} {n m : Nat} (h : n ≤ m)
    (he : elem.localsBelow n) : elem.localsBelow m := by
  cases elem with
  | index idx =>
    simp only [PlaceElem.localsBelow, decide_eq_true_eq] at he ⊢
    exact lt_of_lt_of_le he h
  | _ => rfl

-- The node `add_operand` draws its edge from when the graph has `L` nodes: the place's local or
-- the last node of its projection chain, or the constant node it pushes.
def Operand.source (L : Nat) : Operand → Local
  | .copy place | .move place =>
    if place.projection = [] then place.local else L + place.projection.length - 1
  | .constant _ => L

-- How many nodes `add_operand` appends.
def Operand.newNodes : Operand → Nat
  | .copy place | .move place => place.projection.length
  | .constant _ => 1

-- The nodes operands resolved one after another from `L` nodes are drawn from.
def Operand.sources (L : Nat) : List Operand → List Local
  | [] => []
  | operand :: rest => operand.source L :: Operand.sources (L + operand.newNodes) rest

namespace Graph

-- The edges `parse_one_step` pushes for one projection into the fresh node `dst`, reached from
-- `src`, all with `seq` 0 since `dst` is new: one tagged after the projection, and for an
-- `Index` a second one from the index local. A projection it panics on pushes none.
def stepEdges (src dst : Local) : PlaceElem → List GraphEdge
  | .deref => [⟨src, dst, .deref, 0⟩]
  | .field fieldIdx => [⟨src, dst, .field (toString fieldIdx), 0⟩]
  | .downcast (some name) => [⟨src, dst, .downcast name, 0⟩]
  | .index idx => [⟨src, dst, .index, 0⟩, ⟨idx, dst, .index, 0⟩]
  | .constantIndex => [⟨src, dst, .constIndex, 0⟩]
  | .subslice => [⟨src, dst, .subSlice, 0⟩]
  | .downcast none | .opaqueCast | .subtype => []

-- The edges of a projection chain from `ret` whose fresh nodes are numbered from `next`.
def chainEdges (ret next : Local) : List PlaceElem → List GraphEdge
  | [] => []
  | elem :: rest => stepEdges ret next elem ++ chainEdges next (next + 1) rest

-- `g'` is `g` with `k` fresh nodes appended and the edges `es` pushed: an old node changes only
-- its `out_edges`, and a fresh node is a `GraphNode::new()` but for its edge lists.
structure Appends (g g' : Graph) (k : Nat) (es : List GraphEdge) : Prop where
  length_eq : g'.nodes.length = g.nodes.length + k
  edges_eq : g'.edges = g.edges ++ es
  old : ∀ (v : Local) (n : GraphNode), g.nodes[v]? = some n →
    ∃ outs, g'.nodes[v]? = some { n with outEdges := outs }
  fresh : ∀ i : Nat, i < k → ∃ ins outs,
    g'.nodes[g.nodes.length + i]? = some { GraphNode.new with inEdges := ins, outEdges := outs }

theorem stepEdges_dst {src dst : Local} {elem : PlaceElem} : ∀ e ∈ stepEdges src dst elem, e.dst = dst := by
  cases elem with
  | downcast symbol => cases symbol <;> simp [stepEdges]
  | _ => simp [stepEdges]

-- Every edge of a chain ends at one of its fresh nodes.
theorem chainEdges_dst {ret next : Local} {elems : List PlaceElem} :
    ∀ e ∈ chainEdges ret next elems, next ≤ e.dst := by
  induction elems generalizing ret next with
  | nil => simp [chainEdges]
  | cons elem rest ih =>
    simp only [chainEdges, List.mem_append]
    rintro e (he | he)
    · exact (stepEdges_dst e he).ge
    · exact Nat.le_of_succ_le (ih e he)

section Appends

variable {g g₁ g₂ g' : Graph} {k k₁ k₂ : Nat} {es es₁ es₂ : List GraphEdge}

theorem Appends.refl (g : Graph) : Appends g g 0 [] :=
  ⟨rfl, (List.append_nil _).symm, fun _ n h => ⟨n.outEdges, h⟩,
    fun _ h => absurd h (Nat.not_lt_zero _)⟩

theorem Appends.trans (h₁ : Appends g g₁ k₁ es₁) (h₂ : Appends g₁ g₂ k₂ es₂) :
    Appends g g₂ (k₁ + k₂) (es₁ ++ es₂) := by
  refine ⟨by rw [h₂.length_eq, h₁.length_eq, Nat.add_assoc],
    by rw [h₂.edges_eq, h₁.edges_eq, List.append_assoc], fun v n hn => ?_, fun i hi => ?_⟩
  · obtain ⟨outs, h⟩ := h₁.old v n hn
    obtain ⟨outs', h'⟩ := h₂.old v _ h
    exact ⟨outs', h'⟩
  · rcases Nat.lt_or_ge i k₁ with hi₁ | hi₁
    · obtain ⟨ins, outs, h⟩ := h₁.fresh i hi₁
      obtain ⟨outs', h'⟩ := h₂.old _ _ h
      exact ⟨ins, outs', h'⟩
    · obtain ⟨ins, outs, h⟩ := h₂.fresh (i - k₁) (by omega)
      rw [h₁.length_eq, Nat.add_assoc, Nat.add_sub_cancel' hi₁] at h
      exact ⟨ins, outs, h⟩

theorem Appends.pushNode : Appends g (g.pushNode GraphNode.new).1 1 [] := by
  refine ⟨by simp, by simp, fun v n hn => ⟨n.outEdges, ?_⟩, fun i hi => ⟨[], [], ?_⟩⟩
  · simpa [List.getElem?_append_left (List.getElem?_eq_some_iff.mp hn).1] using hn
  · obtain rfl : i = 0 := by omega
    simp [GraphNode.new]

-- An edge into a fresh node: its `seq` is still 0, and of the old nodes only `src` changes,
-- in its `out_edges`.
theorem Appends.addNodeEdge (ha : Appends g g₁ k es) {src dst : Local} {op : EdgeOp} {e : EdgeIdx}
    (hdst : g.nodes.length ≤ dst) (h : g₁.addNodeEdge src dst op = .ok (g₂, e)) :
    Appends g g₂ k (es ++ [⟨src, dst, op, 0⟩]) := by
  obtain ⟨n, hn, -, -, rfl⟩ := addNodeEdge_spec h
  obtain ⟨i, rfl⟩ : ∃ i, dst = g.nodes.length + i :=
    ⟨dst - g.nodes.length, (Nat.add_sub_cancel' hdst).symm⟩
  have hi : i < k := by
    have := (List.getElem?_eq_some_iff.mp hn).1
    rw [ha.length_eq] at this
    exact Nat.lt_of_add_lt_add_left this
  obtain ⟨ins, outs, hfresh⟩ := ha.fresh i hi
  obtain rfl := Option.some.inj (hn.symm.trans hfresh)
  refine ⟨by simp [ha.length_eq], by simp [ha.edges_eq, GraphNode.new], fun v m hm => ?_,
    fun j hj => ?_⟩
  · obtain ⟨outs', h'⟩ := ha.old v m hm
    have hv : g.nodes.length + i ≠ v := by
      have := (List.getElem?_eq_some_iff.mp hm).1
      omega
    simp only [List.getElem?_modify, h', hv, Option.map_eq_map, Option.map_some', if_false]
    split_ifs
    · exact ⟨_, rfl⟩
    · exact ⟨_, rfl⟩
  · obtain ⟨ins', outs', h'⟩ := ha.fresh j hj
    simp only [List.getElem?_modify, h', Option.map_eq_map, Option.map_some']
    split_ifs
    · exact ⟨_, _, rfl⟩
    · exact ⟨_, _, rfl⟩
    · exact ⟨_, _, rfl⟩
    · exact ⟨_, _, rfl⟩

-- `parse_one_step` appends one fresh node and the edges of its projection.
theorem Appends.parseOneStep {src dst : Local} {elem : PlaceElem}
    (h : g.parseOneStep src elem = .ok (g', dst)) :
    Appends g g' 1 (stepEdges src g.nodes.length elem) ∧ dst = g.nodes.length := by
  have link : ∀ {g₂ : Graph} {o : EdgeOp}, Prod.fst <$> (g.pushNode GraphNode.new).1.addNodeEdge src
      g.nodes.length o = .ok g₂ → Appends g g₂ 1 [⟨src, g.nodes.length, o, 0⟩] :=
    fun h => let ⟨_, h⟩ := fst_map_eq_ok.mp h; Appends.pushNode.addNodeEdge le_rfl h
  cases elem with
  | deref | field | constantIndex | subslice =>
    simp only [Graph.parseOneStep, pushNode_snd, bind_eq_ok, pure_eq_ok, Prod.mk.injEq] at h
    obtain ⟨_, h, rfl, rfl⟩ := h
    exact ⟨link h, rfl⟩
  | downcast symbol =>
    cases symbol with
    | none => simp [Graph.parseOneStep, bind_eq_ok] at h
    | some name =>
      simp only [Graph.parseOneStep, pushNode_snd, bind_eq_ok, pure_eq_ok, Prod.mk.injEq] at h
      obtain ⟨_, rfl, _, h, rfl, rfl⟩ := h
      exact ⟨link h, rfl⟩
  | index idx =>
    simp only [Graph.parseOneStep, pushNode_snd, bind_eq_ok, pure_eq_ok, Prod.mk.injEq] at h
    obtain ⟨⟨g₃, e⟩, h₁, _, h₂, rfl, rfl⟩ := h
    obtain ⟨e', h₂⟩ := fst_map_eq_ok.mp h₂
    exact ⟨(Appends.pushNode.addNodeEdge le_rfl h₁).addNodeEdge le_rfl h₂, rfl⟩
  | opaqueCast | subtype => simp [Graph.parseOneStep, bind_eq_ok] at h

-- The loop of `parse_place` appends one fresh node per projection, chained by their edges, and
-- returns the last of them.
theorem Appends.parseSteps {elems : List PlaceElem} {ret r : Local}
    (h : g.parseSteps ret elems = .ok (g', r)) :
    Appends g g' elems.length (chainEdges ret g.nodes.length elems) ∧
      r = if elems = [] then ret else g.nodes.length + elems.length - 1 := by
  induction elems generalizing g ret with
  | nil =>
    obtain ⟨rfl, rfl⟩ := Prod.mk.inj (pure_eq_ok.mp h)
    exact ⟨.refl g, rfl⟩
  | cons elem rest ih =>
    simp only [Graph.parseSteps, bind_eq_ok] at h
    obtain ⟨⟨g₁, r₁⟩, h₁, h₂⟩ := h
    obtain ⟨ha₁, rfl⟩ := Appends.parseOneStep h₁
    obtain ⟨ha₂, hr⟩ := ih h₂
    rw [ha₁.length_eq] at ha₂ hr
    refine ⟨by simpa only [List.length_cons, Nat.add_comm 1] using ha₁.trans ha₂, ?_⟩
    rw [hr, if_neg (List.cons_ne_nil _ _)]
    split_ifs with hrest <;> simp [hrest]

end Appends

section Progress

variable {g : Graph}

theorem parseOneStep_ok {src : Local} {elem : PlaceElem} (hsrc : src < g.nodes.length)
    (hs : elem.supported) (hidx : elem.localsBelow g.nodes.length) :
    ∃ r, g.parseOneStep src elem = .ok r := by
  have link : ∀ o, ∃ r, (do
      let g' ← Prod.fst <$> (g.pushNode GraphNode.new).1.addNodeEdge src g.nodes.length o
      pure (g', g.nodes.length) : Except Fault (Graph × Local)) = .ok r := fun o => by
    obtain ⟨r, hr⟩ : ∃ r, (g.pushNode GraphNode.new).1.addNodeEdge src g.nodes.length o = .ok r :=
      addNodeEdge_ok o (by simpa using Nat.lt_succ_of_lt hsrc) (by simp)
    simp only [hr, map_ok, ok_bind]
    exact ⟨_, rfl⟩
  cases elem with
  | deref | field | constantIndex | subslice => exact link _
  | downcast symbol =>
    cases symbol with
    | none => simp [PlaceElem.supported] at hs
    | some name => exact link _
  | index idx =>
    obtain ⟨⟨g₃, e⟩, h₃⟩ : ∃ r, (g.pushNode GraphNode.new).1.addNodeEdge src g.nodes.length
        .index = .ok r := addNodeEdge_ok _ (by simpa using Nat.lt_succ_of_lt hsrc) (by simp)
    have hlen : g₃.nodes.length = g.nodes.length + 1 := by
      simpa using (Appends.pushNode.addNodeEdge le_rfl h₃).length_eq
    simp only [PlaceElem.localsBelow, decide_eq_true_eq] at hidx
    obtain ⟨r, hr⟩ : ∃ r, g₃.addNodeEdge idx g.nodes.length .index = .ok r :=
      addNodeEdge_ok _ (hlen ▸ Nat.lt_succ_of_lt hidx) (hlen ▸ Nat.lt_succ_self _)
    simp only [Graph.parseOneStep, pushNode_snd, h₃, hr, map_ok, ok_bind]
    exact ⟨_, rfl⟩
  | opaqueCast | subtype => simp [PlaceElem.supported] at hs

theorem parseSteps_ok {elems : List PlaceElem} {ret : Local} (hret : ret < g.nodes.length)
    (hs : elems.all (·.supported)) (hidx : elems.all (·.localsBelow g.nodes.length)) :
    ∃ r, g.parseSteps ret elems = .ok r := by
  induction elems generalizing g ret with
  | nil => exact ⟨_, rfl⟩
  | cons elem rest ih =>
    simp only [List.all_cons, Bool.and_eq_true, List.all_eq_true] at hs hidx
    obtain ⟨⟨g₁, r₁⟩, h₁⟩ := parseOneStep_ok hret hs.1 hidx.1
    obtain ⟨ha₁, rfl⟩ := Appends.parseOneStep h₁
    refine exists_bind_ok h₁ (ih (ha₁.length_eq ▸ Nat.lt_succ_self _) (List.all_eq_true.mpr hs.2)
      (List.all_eq_true.mpr fun elem he => ?_))
    rw [ha₁.length_eq]
    exact PlaceElem.localsBelow_mono (Nat.le_succ _) (hidx.2 elem he)

end Progress

section Operand

variable {g g' : Graph} {dst : Local}

-- `add_operand` appends the operand's own nodes and the edges ending at them, then one edge
-- from the node it resolved the operand to into `dst`.
theorem addOperand_edges {operand : Operand} (h : g.addOperand operand dst = .ok g') :
    g'.nodes.length = g.nodes.length + operand.newNodes ∧ ∃ pre op seq,
      g'.edges = g.edges ++ pre ++ [⟨operand.source g.nodes.length, dst, op, seq⟩] ∧
      ∀ x ∈ pre, g.nodes.length ≤ x.dst := by
  cases operand with
  | copy place | move place =>
    simp only [Graph.addOperand, bind_eq_ok] at h
    obtain ⟨⟨g₁, src⟩, h₁, h₂⟩ := h
    obtain ⟨e, h₂⟩ := fst_map_eq_ok.mp h₂
    obtain ⟨ha, rfl⟩ := Appends.parseSteps h₁
    obtain ⟨n, -, -, -, rfl⟩ := addNodeEdge_spec h₂
    exact ⟨by simp [ha.length_eq, Operand.newNodes], _, _, _, by rw [ha.edges_eq]; rfl, chainEdges_dst⟩
  | constant c =>
    obtain ⟨e, h⟩ := fst_map_eq_ok.mp h
    obtain ⟨n, -, -, rfl⟩ := addConstEdge_spec h
    exact ⟨by simp [Operand.newNodes], [], _, _, by rw [List.append_nil]; rfl, by simp⟩

-- The edges that `for operand in operands { self.add_operand(operand, dst) }` draws into an old
-- node `dst` come from the operands' nodes, in order.
theorem addOperands_edges {operands : List Operand} (hdst : dst < g.nodes.length)
    (h : g.addOperands dst operands = .ok g') : ∃ es, g'.edges = g.edges ++ es ∧
      (es.filter (·.dst == dst)).map (·.src) = Operand.sources g.nodes.length operands := by
  induction operands generalizing g with
  | nil => exact ⟨[], by rw [← pure_eq_ok.mp h, List.append_nil], rfl⟩
  | cons operand rest ih =>
    simp only [Graph.addOperands, bind_eq_ok] at h
    obtain ⟨g₁, h₁, h₂⟩ := h
    obtain ⟨hlen, pre, op, seq, hedges, hpre⟩ := addOperand_edges h₁
    obtain ⟨es, hes, hfilter⟩ := ih (hlen ▸ Nat.lt_of_lt_of_le hdst (Nat.le_add_right _ _)) h₂
    refine ⟨pre ++ [⟨operand.source g.nodes.length, dst, op, seq⟩] ++ es, by simp only [hes, hedges, List.append_assoc], ?_⟩
    have hpre' : pre.filter (·.dst == dst) = [] :=
      List.filter_eq_nil_iff.mpr fun x hx => by
        simpa using Nat.ne_of_gt (Nat.lt_of_lt_of_le hdst (hpre x hx))
    rw [List.filter_append, List.filter_append, hpre', List.map_append, List.map_append, hfilter, hlen]
    simp [Operand.sources]

end Operand

-- `parse_place` with a base local that has a node and named projections whose index locals have
-- nodes returns the base when there is no projection and the last fresh node otherwise, after
-- appending one fresh node per projection and exactly the edges of the chain.
theorem parsePlace_chain {g : Graph} {place : Place} (hb : place.local < g.nodes.length)
    (hs : place.supported) (hidx : place.projection.all (·.localsBelow g.nodes.length)) :
    ∃ g', g.parsePlace place = .ok (g', if place.projection = [] then place.local
        else g.nodes.length + place.projection.length - 1) ∧
      Appends g g' place.projection.length
        (chainEdges place.local g.nodes.length place.projection) := by
  obtain ⟨⟨g', r⟩, h⟩ := parseSteps_ok hb hs hidx
  obtain ⟨ha, rfl⟩ := Appends.parseSteps h
  exact ⟨g', h, ha⟩

-- `*(_1[_2])` over three locals.
theorem parsePlace_chain_derefIndex :
    1 < (Graph.new ⟨0, 0⟩ dummySp 0 3).nodes.length ∧
    Place.supported ⟨1, [.index 2, .deref]⟩ ∧
    [PlaceElem.index 2, .deref].all (·.localsBelow (Graph.new ⟨0, 0⟩ dummySp 0 3).nodes.length) ∧
    ∃ g', (Graph.new ⟨0, 0⟩ dummySp 0 3).parsePlace ⟨1, [.index 2, .deref]⟩ = .ok (g', 4) ∧
      Appends (Graph.new ⟨0, 0⟩ dummySp 0 3) g' 2 (chainEdges 1 3 [.index 2, .deref]) :=
  ⟨by decide, by decide, by decide,
    @parsePlace_chain (Graph.new ⟨0, 0⟩ dummySp 0 3) ⟨1, [.index 2, .deref]⟩
      (by decide) (by decide) (by decide)⟩

-- `(_0 as variant)` where the variant has no name: `symbol.unwrap()` panics.
theorem parsePlace_unnamed_downcast_panics :
    (Graph.new ⟨0, 0⟩ dummySp 0 1).parsePlace ⟨0, [.downcast none]⟩ = .error .unwrapNone := rfl

end Graph

end RapxDataflow
