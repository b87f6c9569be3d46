import RapxDataflow.Graph.Build

namespace RapxDataflow.Graph

-- A node that exists and is not a constant node.
def Plain (g : Graph) (v : Local) : Prop :=
  ∃ n, g.nodes[v]? = some n ∧ n.op.isConst = false

-- What every graph the builder produces satisfies: edges point at nodes, each adjacency
-- list is the list of ids of the edges at that node, except that a constant node keeps
-- no out-edges, and constant nodes are never a destination.
structure WellFormed (g : Graph) : Prop where
  src_lt : ∀ edge ∈ g.edges, edge.src < g.nodes.length
  dst_plain : ∀ edge ∈ g.edges, g.Plain edge.dst
  in_edges : ∀ v n, g.nodes[v]? = some n → n.inEdges = idsWhere g.edges (·.dst == v)
  out_edges : ∀ v n, g.nodes[v]? = some n →
    n.outEdges = if n.op.isConst then [] else idsWhere g.edges (·.src == v)
  locals_plain : ∀ v < g.nLocals, g.Plain v

-- What a builder step keeps: the header, and every plain node.
structure Grows (g g' : Graph) : Prop where
  argc_eq : g'.argc = g.argc
  nLocals_eq : g'.nLocals = g.nLocals
  plain : ∀ v, g.Plain v → g'.Plain v

section Spec

variable {g g' : Graph} {src dst : Local} {op : EdgeOp} {e : EdgeIdx}

theorem addNodeEdge_spec (h : g.addNodeEdge src dst op = .ok (g', e)) :
    ∃ n, g.nodes[dst]? = some n ∧ src < g.nodes.length ∧ e = g.edges.length ∧
      g' = { g with
        edges := g.edges ++ [⟨src, dst, op, n.seq⟩]
        nodes := (g.nodes.modify (·.pushInEdge g.edges.length) dst).modify
          (·.pushOutEdge g.edges.length) src } := by
  simp only [addNodeEdge, pushEdge, bind_eq_ok, node_eq_ok, modifyNode_eq_ok, pure_eq_ok,
    List.length_modify] at h
  obtain ⟨n, hn, _, ⟨-, rfl⟩, _, ⟨hsrc, rfl⟩, h⟩ := h
  cases h
  exact ⟨n, hn, by simpa using hsrc, rfl, rfl⟩

theorem addConstEdge_spec {text : String} (h : g.addConstEdge text dst op = .ok (g', e)) :
    ∃ n, g.nodes[dst]? = some n ∧ e = g.edges.length ∧
      g' = { g with
        edges := g.edges ++ [⟨g.nodes.length, dst, op, n.seq⟩]
        nodes := (g.nodes ++ [{ GraphNode.new with op := .const text }]).modify
          (·.pushInEdge g.edges.length) dst } := by
  simp only [addConstEdge, pushNode, pushEdge, bind_eq_ok, node_eq_ok, modifyNode_eq_ok,
    pure_eq_ok] at h
  obtain ⟨n, hn, _, ⟨-, rfl⟩, h⟩ := h
  cases h
  exact ⟨n, hn, rfl, rfl⟩

end Spec

section Preservation

variable {g g' : Graph} {src dst : Local} {op : EdgeOp} {e : EdgeIdx}

theorem Grows.refl (g : Graph) : g.Grows g := ⟨rfl, rfl, fun _ h => h⟩

theorem Grows.trans {g₁ g₂ g₃ : Graph} (h₁ : g₁.Grows g₂) (h₂ : g₂.Grows g₃) : g₁.Grows g₃ :=
  ⟨h₂.argc_eq.trans h₁.argc_eq, h₂.nLocals_eq.trans h₁.nLocals_eq, fun v h => h₂.plain v (h₁.plain v h)⟩

-- Every existing node stays a constant node or stays a plain one; nodes may be appended.
def KeepsOps (l l' : List GraphNode) : Prop :=
  ∀ (v : Nat) (n : GraphNode), l[v]? = some n →
    ∃ n' : GraphNode, l'[v]? = some n' ∧ n'.op.isConst = n.op.isConst

theorem KeepsOps.trans {l₁ l₂ l₃ : List GraphNode} (h₁ : KeepsOps l₁ l₂) (h₂ : KeepsOps l₂ l₃) :
    KeepsOps l₁ l₃ := by
  intro v n hn
  obtain ⟨n₂, hn₂, hop₂⟩ := h₁ v n hn
  obtain ⟨n₃, hn₃, hop₃⟩ := h₂ v n₂ hn₂
  exact ⟨n₃, hn₃, hop₃.trans hop₂⟩

theorem keepsOps_modify (l : List GraphNode) (i : Nat) (f : GraphNode → GraphNode)
    (hf : ∀ m, l[i]? = some m → (f m).op.isConst = m.op.isConst) : KeepsOps l (l.modify f i) := by
  intro v n hn
  simp only [List.getElem?_modify, hn, Option.map_eq_map, Option.map_some']
  refine ⟨_, rfl, ?_⟩
  split_ifs with h
  · exact hf n (h ▸ hn)
  · rfl

theorem keepsOps_append (l extra : List GraphNode) : KeepsOps l (l ++ extra) :=
  fun v n hn => ⟨n, by rw [List.getElem?_append_left (List.getElem?_eq_some_iff.mp hn).1, hn], rfl⟩

theorem plain_of_keepsOps (hk : KeepsOps g.nodes g'.nodes) {v : Local} (h : g.Plain v) :
    g'.Plain v := by
  obtain ⟨n, hn, hc⟩ := h
  obtain ⟨n', hn', hop⟩ := hk v n hn
  exact ⟨n', hn', hop ▸ hc⟩

theorem WellFormed.addNodeEdge (hg : g.WellFormed) (hsrc : g.Plain src) (hdst : g.Plain dst)
    (h : g.addNodeEdge src dst op = .ok (g', e)) : g'.WellFormed ∧ g.Grows g' := by
  obtain ⟨n, hn, hlt, rfl, rfl⟩ := addNodeEdge_spec h
  have hplain : ∀ v, g.Plain v → Graph.Plain { g with
      edges := g.edges ++ [⟨src, dst, op, n.seq⟩]
      nodes := (g.nodes.modify (·.pushInEdge g.edges.length) dst).modify
        (·.pushOutEdge g.edges.length) src } v := fun v => plain_of_keepsOps
    ((keepsOps_modify _ dst (·.pushInEdge _) fun _ _ => rfl).trans
      (keepsOps_modify _ src (·.pushOutEdge _) fun _ _ => rfl))
  refine ⟨⟨?_, ?_, ?_, ?_, ?_⟩, ⟨rfl, rfl, hplain⟩⟩
  · simp only [List.mem_append, List.mem_singleton, List.length_modify]
    rintro edge (he | rfl)
    exacts [hg.src_lt edge he, hlt]
  · simp only [List.mem_append, List.mem_singleton]
    rintro edge (he | rfl)
    exacts [hplain _ (hg.dst_plain edge he), hplain _ hdst]
  · intro v m hm
    simp only [List.getElem?_modify, Option.map_eq_map, Option.map_map, Option.map_eq_some'] at hm
    obtain ⟨a, ha, rfl⟩ := hm
    rw [idsWhere_append, ← hg.in_edges v a ha]
    by_cases hd : dst = v <;> by_cases hs : src = v <;> simp [hd, hs]
  · intro v m hm
    simp only [List.getElem?_modify, Option.map_eq_map, Option.map_map, Option.map_eq_some'] at hm
    obtain ⟨a, ha, rfl⟩ := hm
    have hout := hg.out_edges v a ha
    rw [idsWhere_append]
    by_cases hs : src = v
    · subst hs
      obtain ⟨b, hb, hc⟩ := hsrc
      obtain rfl : a = b := Option.some_injective _ (ha.symm.trans hb)
      by_cases hd : dst = src <;> simp_all
    · by_cases hd : dst = v <;> split_ifs at hout <;> simp_all
  · exact fun v hv => hplain v (hg.locals_plain v hv)

theorem idsWhere_eq_nil {edges : List GraphEdge} {p : GraphEdge → Bool}
    (h : ∀ edge ∈ edges, p edge = false) : idsWhere edges p = [] := by
  refine List.eq_nil_iff_forall_not_mem.mpr fun e he => ?_
  obtain ⟨edge, he, hp⟩ := mem_idsWhere.mp he
  simp [h edge (List.getElem?_mem he)] at hp

theorem Plain.lt {v : Local} (h : g.Plain v) : v < g.nodes.length :=
  (List.getElem?_eq_some_iff.mp h.choose_spec.1).1

theorem WellFormed.dst_lt (hg : g.WellFormed) {edge : GraphEdge} (he : edge ∈ g.edges) :
    edge.dst < g.nodes.length := by
  obtain ⟨n, hn, -⟩ := hg.dst_plain edge he
  exact (List.getElem?_eq_some_iff.mp hn).1

-- No edge touches a node past the end: what a new node's empty lists need.
theorem WellFormed.idsWhere_past (hg : g.WellFormed) :
    idsWhere g.edges (·.dst == g.nodes.length) = [] ∧
      idsWhere g.edges (·.src == g.nodes.length) = [] := by
  constructor <;> refine idsWhere_eq_nil fun edge he => ?_
  · simpa using (hg.dst_lt he).ne
  · simpa using (hg.src_lt edge he).ne

theorem WellFormed.pushNode (hg : g.WellFormed) {n : GraphNode} (hn : n.inEdges = [])
    (hout : n.outEdges = []) : (g.pushNode n).1.WellFormed ∧ g.Grows (g.pushNode n).1 := by
  simp only [pushNode_fst]
  have hk : KeepsOps g.nodes (g.nodes ++ [n]) := keepsOps_append _ _
  have hplain : ∀ v, g.Plain v → Graph.Plain { g with nodes := g.nodes ++ [n] } v :=
    fun v => plain_of_keepsOps hk
  refine ⟨⟨?_, ?_, ?_, ?_, ?_⟩, ⟨rfl, rfl, hplain⟩⟩
  · intro edge he
    simpa using Nat.lt_succ_of_lt (hg.src_lt edge he)
  · exact fun edge he => hplain _ (hg.dst_plain edge he)
  · intro v m hm
    rcases getElem?_push_eq_some.mp hm with hm | ⟨rfl, rfl⟩
    · exact hg.in_edges v m hm
    · simpa [hn] using hg.idsWhere_past.1.symm
  · intro v m hm
    rcases getElem?_push_eq_some.mp hm with hm | ⟨rfl, rfl⟩
    · exact hg.out_edges v m hm
    · simp [hout, hg.idsWhere_past.2]
  · exact fun v hv => hplain v (hg.locals_plain v hv)

theorem WellFormed.addConstEdge (hg : g.WellFormed) (hdst : g.Plain dst) {text : String}
    (h : g.addConstEdge text dst op = .ok (g', e)) : g'.WellFormed ∧ g.Grows g' := by
  obtain ⟨n, hn, rfl, rfl⟩ := addConstEdge_spec h
  have hlt : dst < g.nodes.length := (List.getElem?_eq_some_iff.mp hn).1
  have hk : KeepsOps g.nodes ((g.nodes ++ [{ GraphNode.new with op := .const text }]).modify
      (·.pushInEdge g.edges.length) dst) :=
    (keepsOps_append _ _).trans (keepsOps_modify _ dst (·.pushInEdge _) fun _ _ => rfl)
  have hplain : ∀ v, g.Plain v → Graph.Plain { g with
      edges := g.edges ++ [⟨g.nodes.length, dst, op, n.seq⟩]
      nodes := (g.nodes ++ [{ GraphNode.new with op := .const text }]).modify
        (·.pushInEdge g.edges.length) dst } v := fun v => plain_of_keepsOps hk
  refine ⟨⟨?_, ?_, ?_, ?_, ?_⟩, ⟨rfl, rfl, hplain⟩⟩
  · simp only [List.mem_append, List.mem_singleton, List.length_modify, List.length_append,
      List.length_singleton]
    rintro edge (he | rfl)
    exacts [Nat.lt_succ_of_lt (hg.src_lt edge he), Nat.lt_succ_self _]
  · simp only [List.mem_append, List.mem_singleton]
    rintro edge (he | rfl)
    exacts [hplain _ (hg.dst_plain edge he), hplain _ hdst]
  · intro v m hm
    simp only [List.getElem?_modify, Option.map_eq_map, Option.map_eq_some'] at hm
    obtain ⟨a, ha, rfl⟩ := hm
    rw [idsWhere_append]
    rcases getElem?_push_eq_some.mp ha with ha | ⟨rfl, rfl⟩
    · rw [← hg.in_edges v a ha]
      by_cases hd : dst = v <;> simp [hd]
    · simp [hlt.ne, GraphNode.new, hg.idsWhere_past.1]
  · intro v m hm
    simp only [List.getElem?_modify, Option.map_eq_map, Option.map_eq_some'] at hm
    obtain ⟨a, ha, rfl⟩ := hm
    rw [idsWhere_append]
    rcases getElem?_push_eq_some.mp ha with ha | ⟨rfl, rfl⟩
    · have hv : v ≠ g.nodes.length := (List.getElem?_eq_some_iff.mp ha).1.ne
      have hout := hg.out_edges v a ha
      by_cases hd : dst = v <;> simp [hd, hv.symm, hout]
    · simp [hlt.ne, GraphNode.new, NodeOp.isConst]
  · exact fun v hv => hplain v (hg.locals_plain v hv)

-- A write to one node's fields other than its adjacency lists.
theorem WellFormed.modifyNode (hg : g.WellFormed) {i : Local} {f : GraphNode → GraphNode}
    (h : g.modifyNode i f = .ok g')
    (hf : ∀ m, g.nodes[i]? = some m → (f m).inEdges = m.inEdges ∧ (f m).outEdges = m.outEdges ∧
      (f m).op.isConst = m.op.isConst) : g'.WellFormed ∧ g.Grows g' := by
  obtain ⟨-, rfl⟩ := modifyNode_eq_ok.mp h
  have hplain : ∀ v, g.Plain v → Graph.Plain { g with nodes := g.nodes.modify f i } v :=
    fun v => plain_of_keepsOps (keepsOps_modify _ i f fun m hm => (hf m hm).2.2)
  refine ⟨⟨?_, ?_, ?_, ?_, ?_⟩, ⟨rfl, rfl, hplain⟩⟩
  · simpa using hg.src_lt
  · exact fun edge he => hplain _ (hg.dst_plain edge he)
  · intro v m hm
    simp only [List.getElem?_modify, Option.map_eq_map, Option.map_eq_some'] at hm
    obtain ⟨a, ha, rfl⟩ := hm
    split_ifs with hiv
    · subst hiv; rw [(hf a ha).1]; exact hg.in_edges _ a ha
    · exact hg.in_edges v a ha
  · intro v m hm
    simp only [List.getElem?_modify, Option.map_eq_map, Option.map_eq_some'] at hm
    obtain ⟨a, ha, rfl⟩ := hm
    by_cases hiv : i = v
    · subst hiv
      simp only [if_true]
      rw [(hf a ha).2.1, (hf a ha).2.2]
      exact hg.out_edges _ a ha
    · simpa only [hiv, if_false] using hg.out_edges v a ha
  · exact fun v hv => hplain v (hg.locals_plain v hv)

theorem WellFormed.setOp (hg : g.WellFormed) (hdst : g.Plain dst) {o : NodeOp}
    (ho : o.isConst = false) (h : g.setOp dst o = .ok g') : g'.WellFormed ∧ g.Grows g' := by
  obtain ⟨n, hn, hc⟩ := hdst
  refine hg.modifyNode h fun m hm => ?_
  obtain rfl : n = m := Option.some_injective _ (hn.symm.trans hm)
  exact ⟨rfl, rfl, ho.trans hc.symm⟩

theorem WellFormed.new_plain (hg : g.WellFormed) :
    (g.pushNode GraphNode.new).1.WellFormed ∧ g.Grows (g.pushNode GraphNode.new).1 ∧
      (g.pushNode GraphNode.new).1.Plain g.nodes.length :=
  ⟨(hg.pushNode rfl rfl).1, (hg.pushNode rfl rfl).2,
    ⟨GraphNode.new, by simp, rfl⟩⟩

theorem WellFormed.linkNode (hg : g.WellFormed) (hsrc : g.Plain src) (hdst : g.Plain dst)
    (h : Prod.fst <$> g.addNodeEdge src dst op = .ok g') : g'.WellFormed ∧ g.Grows g' := by
  obtain ⟨e, h⟩ := fst_map_eq_ok.mp h
  exact hg.addNodeEdge hsrc hdst h

theorem WellFormed.parseOneStep (hg : g.WellFormed) (hsrc : g.Plain src) {elem : PlaceElem}
    (helem : elem.localsBelow g.nLocals) (h : g.parseOneStep src elem = .ok (g', dst)) :
    g'.WellFormed ∧ g.Grows g' ∧ g'.Plain dst := by
  obtain ⟨hg₁, hgrow₁, hnew⟩ := hg.new_plain
  have hsrc₁ := hgrow₁.plain _ hsrc
  have link : ∀ {o : EdgeOp}, Prod.fst <$> (g.pushNode GraphNode.new).1.addNodeEdge src
      g.nodes.length o = .ok g' → g'.WellFormed ∧ g.Grows g' ∧ g'.Plain g.nodes.length :=
    fun h => have h' := hg₁.linkNode hsrc₁ hnew h; ⟨h'.1, hgrow₁.trans h'.2, h'.2.plain _ hnew⟩
  cases elem with
  | deref | field | constantIndex | subslice =>
    simp only [Graph.parseOneStep, pushNode_snd, bind_eq_ok, pure_eq_ok, Prod.mk.injEq] at h
    obtain ⟨_, h, rfl, rfl⟩ := h
    exact link h
  | downcast symbol =>
    cases symbol with
    | none => simp [Graph.parseOneStep, bind_eq_ok] at h
    | some name =>
      simp only [Graph.parseOneStep, pushNode_snd, bind_eq_ok, pure_eq_ok, Prod.mk.injEq] at h
      obtain ⟨_, rfl, _, h, rfl, rfl⟩ := h
      exact link h
  | index idx =>
    simp only [Graph.parseOneStep, pushNode_snd, bind_eq_ok, pure_eq_ok, Prod.mk.injEq] at h
    obtain ⟨⟨g₃, e⟩, h₁, _, h₂, rfl, rfl⟩ := h
    obtain ⟨hg₃, hgrow₃⟩ := hg₁.addNodeEdge hsrc₁ hnew h₁
    have hidx : g₃.Plain idx := hgrow₃.plain _ (hgrow₁.plain _
      (hg.locals_plain idx (by simpa [PlaceElem.localsBelow] using helem)))
    obtain ⟨hg₂, hgrow₂⟩ := hg₃.linkNode hidx (hgrow₃.plain _ hnew) h₂
    exact ⟨hg₂, hgrow₁.trans (hgrow₃.trans hgrow₂), hgrow₂.plain _ (hgrow₃.plain _ hnew)⟩
  | opaqueCast | subtype => simp [Graph.parseOneStep, bind_eq_ok] at h

theorem WellFormed.parseSteps {elems : List PlaceElem} (hg : g.WellFormed) {ret : Local}
    (hret : g.Plain ret) (helems : elems.all (·.localsBelow g.nLocals))
    (h : g.parseSteps ret elems = .ok (g', dst)) : g'.WellFormed ∧ g.Grows g' ∧ g'.Plain dst := by
  induction elems generalizing g ret with
  | nil =>
    obtain ⟨rfl, rfl⟩ := Prod.mk.inj (pure_eq_ok.mp h)
    exact ⟨hg, .refl g, hret⟩
  | cons elem rest ih =>
    simp only [Graph.parseSteps, bind_eq_ok, List.all_cons, Bool.and_eq_true] at h helems
    obtain ⟨⟨g₁, r₁⟩, h₁, h₂⟩ := h
    obtain ⟨hg₁, hgrow₁, hr₁⟩ := hg.parseOneStep hret helems.1 h₁
    obtain ⟨hg₂, hgrow₂, hr₂⟩ := ih hg₁ hr₁ (hgrow₁.nLocals_eq ▸ helems.2) h₂
    exact ⟨hg₂, hgrow₁.trans hgrow₂, hr₂⟩

theorem WellFormed.parsePlace (hg : g.WellFormed) {place : Place}
    (hplace : place.localsBelow g.nLocals) (h : g.parsePlace place = .ok (g', dst)) :
    g'.WellFormed ∧ g.Grows g' ∧ g'.Plain dst := by
  simp only [Place.localsBelow, Bool.and_eq_true, decide_eq_true_eq] at hplace
  exact hg.parseSteps (hg.locals_plain _ hplace.1) hplace.2 h

theorem WellFormed.addPlaceEdge (hg : g.WellFormed) (hdst : g.Plain dst) {place : Place}
    (hplace : place.localsBelow g.nLocals) (h : g.addPlaceEdge place dst op = .ok g') :
    g'.WellFormed ∧ g.Grows g' := by
  simp only [Graph.addPlaceEdge, bind_eq_ok] at h
  obtain ⟨⟨g₁, src⟩, h₁, h₂⟩ := h
  obtain ⟨hg₁, hgrow₁, hsrc⟩ := hg.parsePlace hplace h₁
  obtain ⟨hg₂, hgrow₂⟩ := hg₁.linkNode hsrc (hgrow₁.plain _ hdst) h₂
  exact ⟨hg₂, hgrow₁.trans hgrow₂⟩

theorem WellFormed.addOperand (hg : g.WellFormed) (hdst : g.Plain dst) {operand : Operand}
    (hop : operand.localsBelow g.nLocals) (h : g.addOperand operand dst = .ok g') :
    g'.WellFormed ∧ g.Grows g' := by
  cases operand with
  | copy place | move place => exact hg.addPlaceEdge hdst hop h
  | constant c =>
    obtain ⟨e, h⟩ := fst_map_eq_ok.mp h
    exact hg.addConstEdge hdst h

theorem WellFormed.addOperands {operands : List Operand} (hg : g.WellFormed) (hdst : g.Plain dst)
    (hops : operands.all (·.localsBelow g.nLocals)) (h : g.addOperands dst operands = .ok g') :
    g'.WellFormed ∧ g.Grows g' := by
  induction operands generalizing g with
  | nil => exact (pure_eq_ok.mp h) ▸ ⟨hg, .refl g⟩
  | cons operand rest ih =>
    simp only [Graph.addOperands, bind_eq_ok, List.all_cons, Bool.and_eq_true] at h hops
    obtain ⟨g₁, h₁, h₂⟩ := h
    obtain ⟨hg₁, hgrow₁⟩ := hg.addOperand hdst hops.1 h₁
    obtain ⟨hg₂, hgrow₂⟩ := ih hg₁ (hgrow₁.plain _ hdst) (hgrow₁.nLocals_eq ▸ hops.2) h₂
    exact ⟨hg₂, hgrow₁.trans hgrow₂⟩

-- The last write of a translation step: the destination's new op.
theorem wellFormed_setOp_after {g₁ : Graph} (h₁ : g₁.WellFormed ∧ g.Grows g₁) (hdst : g.Plain dst)
    {o : NodeOp} (h : g₁.setOp dst o = .ok g') (ho : o.isConst = false) :
    g'.WellFormed ∧ g.Grows g' :=
  have h₂ := h₁.1.setOp (h₁.2.plain _ hdst) ho h
  ⟨h₂.1, h₁.2.trans h₂.2⟩

theorem WellFormed.addRvalue (hg : g.WellFormed) (hdst : g.Plain dst) {rvalue : Rvalue}
    (hrv : rvalue.localsBelow g.nLocals) (h : g.addRvalue rvalue dst = .ok g') :
    g'.WellFormed ∧ g.Grows g' := by
  cases rvalue <;> simp only [Graph.addRvalue, bind_eq_ok, Rvalue.localsBelow,
    Bool.and_eq_true] at h hrv
  case use | «repeat» | cast | unaryOp | shallowInitBox =>
    obtain ⟨g₁, h₁, h₂⟩ := h
    exact wellFormed_setOp_after (hg.addOperand hdst hrv h₁) hdst h₂ rfl
  case ref | len | discriminant | copyForDeref =>
    obtain ⟨g₁, h₁, h₂⟩ := h
    exact wellFormed_setOp_after (hg.addPlaceEdge hdst hrv h₁) hdst h₂ rfl
  case binaryOp =>
    obtain ⟨g₁, h₁, g₂, h₂, h₃⟩ := h
    obtain ⟨hg₁, hgrow₁⟩ := hg.addOperand hdst hrv.1 h₁
    obtain ⟨hg₂, hgrow₂⟩ := hg₁.addOperand (hgrow₁.plain _ hdst) (hgrow₁.nLocals_eq ▸ hrv.2) h₂
    exact wellFormed_setOp_after ⟨hg₂, hgrow₁.trans hgrow₂⟩ hdst h₃ rfl
  case aggregate kind _ =>
    obtain ⟨g₁, h₁, h₂⟩ := h
    have hg₁ := hg.addOperands hdst hrv h₁
    cases hk : aggKind kind <;> simp only [hk, throw_ne_ok] at h₂
    exact wellFormed_setOp_after hg₁ hdst h₂ rfl
  case nullaryOp =>
    obtain ⟨g₁, h₁, h₂⟩ := h
    obtain ⟨e, h₁⟩ := fst_map_eq_ok.mp h₁
    exact wellFormed_setOp_after (hg.addConstEdge hdst h₁) hdst h₂ rfl
  case threadLocalRef | rawPtr => exact absurd h throw_ne_ok

theorem WellFormed.addStatmToGraph (hg : g.WellFormed) {statement : Statement}
    (hs : (Instr.statement statement).localsBelow g.nLocals)
    (h : g.addStatmToGraph statement = .ok g') : g'.WellFormed ∧ g.Grows g' := by
  obtain ⟨kind, span⟩ := statement
  cases kind with
  | other => exact (pure_eq_ok.mp h) ▸ ⟨hg, .refl g⟩
  | assign place rvalue =>
    simp only [Graph.addStatmToGraph, bind_eq_ok, Instr.localsBelow, Bool.and_eq_true] at h hs
    obtain ⟨⟨g₁, dst⟩, h₁, g₂, h₂, g₃, h₃, h₄⟩ := h
    obtain ⟨hg₁, hgrow₁, hdst⟩ := hg.parsePlace hs.1 h₁
    obtain ⟨hg₂, hgrow₂⟩ := hg₁.modifyNode h₂ fun _ _ => ⟨rfl, rfl, rfl⟩
    obtain ⟨hg₃, hgrow₃⟩ := hg₂.addRvalue (hgrow₂.plain _ hdst)
      (by rw [hgrow₂.nLocals_eq, hgrow₁.nLocals_eq]; exact hs.2) h₃
    obtain ⟨hg₄, hgrow₄⟩ := hg₃.modifyNode h₄ fun _ _ => ⟨rfl, rfl, rfl⟩
    exact ⟨hg₄, hgrow₁.trans (hgrow₂.trans (hgrow₃.trans hgrow₄))⟩

theorem WellFormed.addCall (hg : g.WellFormed) (hdst : g.Plain dst) {func : Operand}
    {args : List Operand} (hfunc : func.localsBelow g.nLocals)
    (hargs : args.all (·.localsBelow g.nLocals)) (h : g.addCall func args dst = .ok g') :
    g'.WellFormed ∧ g.Grows g' := by
  cases func with
  | constant c =>
    cases c with
    | val ty text =>
      cases hk : ty.kind with
      | fnDef defId =>
        simp only [Graph.addCall, hk, bind_eq_ok] at h
        obtain ⟨g₁, h₁, h₂⟩ := h
        exact wellFormed_setOp_after (hg.addOperands hdst hargs h₁) hdst h₂ rfl
      | other =>
        simp only [Graph.addCall, hk, pure_eq_ok] at h
        exact h ▸ ⟨hg, .refl g⟩
    | ty | unevaluated => exact (pure_eq_ok.mp h) ▸ ⟨hg, .refl g⟩
  | move place =>
    simp only [Graph.addCall, bind_eq_ok] at h
    obtain ⟨g₁, h₁, g₂, h₂, h₃⟩ := h
    obtain ⟨hg₁, hgrow₁⟩ := hg.addOperand hdst hfunc h₁
    obtain ⟨hg₂, hgrow₂⟩ := hg₁.addOperands (hgrow₁.plain _ hdst) (hgrow₁.nLocals_eq ▸ hargs) h₂
    exact wellFormed_setOp_after ⟨hg₂, hgrow₁.trans hgrow₂⟩ hdst h₃ rfl
  | copy place => exact absurd h throw_ne_ok

theorem WellFormed.addTerminatorToGraph (hg : g.WellFormed) {terminator : Terminator}
    (ht : (Instr.terminator terminator).localsBelow g.nLocals)
    (h : g.addTerminatorToGraph terminator = .ok g') : g'.WellFormed ∧ g.Grows g' := by
  obtain ⟨kind, span⟩ := terminator
  cases kind with
  | other => exact (pure_eq_ok.mp h) ▸ ⟨hg, .refl g⟩
  | call func args destination =>
    simp only [Graph.addTerminatorToGraph, bind_eq_ok, Instr.localsBelow, Bool.and_eq_true,
      Place.localsBelow, decide_eq_true_eq] at h ht
    obtain ⟨g₁, h₁, g₂, h₂, h₃⟩ := h
    obtain ⟨hg₁, hgrow₁⟩ := hg.addCall (hg.locals_plain _ ht.2.1) ht.1.1 ht.1.2 h₁
    obtain ⟨hg₂, hgrow₂⟩ := hg₁.modifyNode h₂ fun _ _ => ⟨rfl, rfl, rfl⟩
    obtain ⟨hg₃, hgrow₃⟩ := hg₂.modifyNode h₃ fun _ _ => ⟨rfl, rfl, rfl⟩
    exact ⟨hg₃, hgrow₁.trans (hgrow₂.trans hgrow₃)⟩

theorem WellFormed.addInstr (hg : g.WellFormed) {instr : Instr}
    (hi : instr.localsBelow g.nLocals) (h : g.addInstr instr = .ok g') :
    g'.WellFormed ∧ g.Grows g' := by
  cases instr with
  | statement statement => exact hg.addStatmToGraph hi h
  | terminator terminator => exact hg.addTerminatorToGraph hi h

theorem WellFormed.translate {instrs : List Instr} (hg : g.WellFormed)
    (hi : ∀ instr ∈ instrs, instr.localsBelow g.nLocals) (h : g.translate instrs = .ok g') :
    g'.WellFormed ∧ g.Grows g' := by
  induction instrs generalizing g with
  | nil => exact (pure_eq_ok.mp h) ▸ ⟨hg, .refl g⟩
  | cons instr rest ih =>
    simp only [Graph.translate, bind_eq_ok] at h
    obtain ⟨g₁, h₁, h₂⟩ := h
    obtain ⟨hg₁, hgrow₁⟩ := hg.addInstr (hi instr (List.mem_cons_self _ _)) h₁
    obtain ⟨hg₂, hgrow₂⟩ := ih hg₁
      (fun i hmem => hgrow₁.nLocals_eq ▸ hi i (List.mem_cons_of_mem _ hmem)) h₂
    exact ⟨hg₂, hgrow₁.trans hgrow₂⟩

theorem wellFormed_new (defId : DefId) (span : Span) (argc nLocals : Nat) :
    (Graph.new defId span argc nLocals).WellFormed := by
  refine ⟨by simp [Graph.new], by simp [Graph.new], ?_, ?_, ?_⟩
  · intro v n hn
    simp only [Graph.new, List.getElem?_replicate, Option.ite_none_right_eq_some,
      Option.some.injEq] at hn
    simp [← hn.2, GraphNode.new, Graph.new]
  · intro v n hn
    simp only [Graph.new, List.getElem?_replicate, Option.ite_none_right_eq_some,
      Option.some.injEq] at hn
    simp [← hn.2, GraphNode.new, NodeOp.isConst, Graph.new]
  · intro v hv
    exact ⟨GraphNode.new, by simpa [Graph.new, List.getElem?_replicate] using hv, rfl⟩

-- Every graph the builder makes from `Graph::new`.
theorem wellFormed_translate_new {instrs : List Instr} {defId : DefId} {span : Span} {argc n : Nat}
    (hi : ∀ instr ∈ instrs, instr.localsBelow n)
    (h : (Graph.new defId span argc n).translate instrs = .ok g) :
    g.WellFormed ∧ g.argc = argc ∧ g.nLocals = n := by
  obtain ⟨hg, hgrow⟩ := (wellFormed_new defId span argc n).translate hi h
  exact ⟨hg, hgrow.argc_eq, hgrow.nLocals_eq⟩

-- Every id in an adjacency list names an edge whose ends exist.
theorem WellFormed.adjacent_lt (hg : g.WellFormed) : ∀ (v : Local) (n : GraphNode),
    g.nodes[v]? = some n → ∀ e ∈ n.inEdges ++ n.outEdges, ∃ edge : GraphEdge,
      g.edges[e]? = some edge ∧ edge.src < g.nodes.length ∧ edge.dst < g.nodes.length := by
  intro v n hn e he
  have hids : ∃ p, e ∈ idsWhere g.edges p := by
    rcases List.mem_append.mp he with he | he
    · exact ⟨_, hg.in_edges v n hn ▸ he⟩
    · rw [hg.out_edges v n hn] at he
      split_ifs at he
      · simp at he
      · exact ⟨_, he⟩
  obtain ⟨p, hp⟩ := hids
  obtain ⟨edge, hedge, -⟩ := mem_idsWhere.mp hp
  have hmem := List.getElem?_mem hedge
  exact ⟨edge, hedge, hg.src_lt edge hmem, hg.dst_lt hmem⟩

end Preservation

end RapxDataflow.Graph
