import RapxDataflow.Query
import RapxDataflow.Graph.WellFormed

namespace RapxDataflow.Graph

-- Looking the ids up gives back the edges that satisfy `p`, in creation order.
theorem idsWhere_lookup (edges : List GraphEdge) (p : GraphEdge → Bool) :
    (idsWhere edges p).map (fun e => edges[e]?) = (edges.filter p).map some := by
  induction edges using List.reverseRecOn with
  | nil => rfl
  | append_singleton l x ih =>
    have hold : (idsWhere l p).map (fun e => (l ++ [x])[e]?) = (idsWhere l p).map (fun e => l[e]?) :=
      List.map_congr_left fun e he => by
        obtain ⟨_, hlt, -⟩ := mem_idsWhere.mp he
        exact List.getElem?_append_left (List.getElem?_eq_some_iff.mp hlt).1
    rw [idsWhere_append, List.map_append, hold, ih, List.filter_append, List.map_append]
    by_cases hx : p x <;> simp [hx]

section Lookup

variable {g : Graph} {v : Local} {n : GraphNode}

-- The `order`-th id of an adjacency list `ids` of edges satisfying `p`, read back as `field`
-- of its edge: what both lookups compute.
theorem lookup_idsWhere {p : GraphEdge → Bool} {field : GraphEdge → Local} (k : Nat) :
    (match (idsWhere g.edges p)[k]? with
      | some edgeIdx => do pure (some (field (← g.edge edgeIdx)))
      | none => pure none : Except Fault (Option Local)) =
      .ok ((g.edges.filter p)[k]?.map field) := by
  have h := congrArg (·[k]?) (idsWhere_lookup g.edges p)
  simp only [List.getElem?_map] at h
  cases hk : (idsWhere g.edges p)[k]? with
  | none =>
    rw [hk] at h
    cases hf : (g.edges.filter p)[k]? <;> simp_all
  | some e =>
    obtain ⟨edge, hedge, hf⟩ : ∃ edge, g.edges[e]? = some edge ∧
        (g.edges.filter p)[k]? = some edge := by
      rw [hk, Option.map_some'] at h
      cases hf : (g.edges.filter p)[k]? <;> simp_all
    simp [edge_of_getElem? hedge, hf]

-- `get_upside_idx(v, k)` is the source of the `k`-th edge into `v` in creation order, and
-- `None` past `v`'s in-degree.
theorem WellFormed.getUpsideIdx_eq (hg : g.WellFormed) (hn : g.nodes[v]? = some n) (k : Nat) :
    g.getUpsideIdx v k = .ok ((g.edges.filter (·.dst == v))[k]?.map (·.src)) := by
  simp only [getUpsideIdx, node_of_getElem? hn, ok_bind, hg.in_edges v n hn]
  exact lookup_idsWhere k

-- `get_downside_idx(v, k)` is the destination of the `k`-th edge out of a plain node `v`; a
-- constant node answers `None` whatever its edges.
theorem WellFormed.getDownsideIdx_eq (hg : g.WellFormed) (hn : g.nodes[v]? = some n) (k : Nat) :
    g.getDownsideIdx v k =
      .ok (if n.op.isConst then none else (g.edges.filter (·.src == v))[k]?.map (·.dst)) := by
  simp only [getDownsideIdx, node_of_getElem? hn, ok_bind, hg.out_edges v n hn]
  split_ifs
  · rfl
  · exact lookup_idsWhere k

-- On every built graph the two lookups read the edge table in creation order; only a
-- constant node's outgoing side is lost.
theorem getUpsideIdx_getDownsideIdx_eq {instrs : List Instr} {defId : DefId} {span : Span}
    {argc nLocals : Nat} (hi : ∀ instr ∈ instrs, instr.localsBelow nLocals)
    (h : (Graph.new defId span argc nLocals).translate instrs = .ok g)
    (hn : g.nodes[v]? = some n) (k : Nat) :
    g.getUpsideIdx v k = .ok ((g.edges.filter (·.dst == v))[k]?.map (·.src)) ∧
    g.getDownsideIdx v k =
      .ok (if n.op.isConst then none else (g.edges.filter (·.src == v))[k]?.map (·.dst)) :=
  have hg := (wellFormed_translate_new hi h).1
  ⟨hg.getUpsideIdx_eq hn k, hg.getDownsideIdx_eq hn k⟩

end Lookup

-- `_0 = const 1_i32`: a use of a constant, whose value becomes constant node 1.
def constReturn : List Instr :=
  [.statement ⟨.assign ⟨0, []⟩ (.use (.constant (.val ⟨.other, "i32"⟩ "1_i32"))), dummySp⟩]

def constGraph : Graph where
  defId := ⟨0, 0⟩
  span := dummySp
  argc := 0
  nodes := [⟨.use, dummySp, 1, [], [0]⟩, ⟨.const "1_i32", dummySp, 0, [], []⟩]
  edges := [⟨1, 0, .const, 0⟩]
  nLocals := 1

-- Edge 0 leaves constant node 1, yet node 1's `out_edges` is empty and
-- `get_downside_idx(1, 0)` is `None`.
theorem constEdge_missing_from_out_edges :
    (Graph.new ⟨0, 0⟩ dummySp 0 1).translate constReturn = .ok constGraph ∧
    constGraph.edges[0]?.map (·.src) = some 1 ∧
    constGraph.nodes[1]?.map (·.outEdges) = some [] ∧
    constGraph.getDownsideIdx 1 0 = .ok none :=
  ⟨rfl, rfl, rfl, rfl⟩

theorem getUpsideIdx_getDownsideIdx_constReturn :
    (∀ instr ∈ constReturn, instr.localsBelow 1) ∧
    (Graph.new ⟨0, 0⟩ dummySp 0 1).translate constReturn = .ok constGraph ∧
    constGraph.nodes[0]? = some ⟨.use, dummySp, 1, [], [0]⟩ ∧
    constGraph.getUpsideIdx 0 0 = .ok ((constGraph.edges.filter (·.dst == 0))[0]?.map (·.src)) ∧
    constGraph.getDownsideIdx 0 0 = .ok (if NodeOp.isConst .use then none
      else (constGraph.edges.filter (·.src == 0))[0]?.map (·.dst)) :=
  ⟨by decide, rfl, rfl, getUpsideIdx_getDownsideIdx_eq (by decide)
    (show (Graph.new ⟨0, 0⟩ dummySp 0 1).translate constReturn = .ok constGraph from rfl) rfl 0⟩

end RapxDataflow.Graph
