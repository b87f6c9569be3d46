import RapxDataflow.Graph.Flow

namespace RapxDataflow.Graph

-- Why a built graph can only cycle through a local: every edge climbs to a higher node, or ends
-- at a local, or ends at a node that no edge leaves. The edges that go down end at the last node
-- of an assignment's projected destination, which nothing ever reads again.
def UpOrSink (n : Nat) (es : List GraphEdge) : Prop :=
  ∀ e ∈ es, e.src < e.dst ∨ e.dst < n ∨ ∀ e' ∈ es, e'.src ≠ e.dst

section Cycle

variable {n : Nat} {es : List GraphEdge}

-- Along a path that ends at a node with an edge out, the nodes climb until a local is met.
theorem UpOrSink.lt_or_local (hU : UpOrSink n es) {v w : Local}
    (h : Relation.TransGen (fun x y => ∃ e ∈ es, e.src = x ∧ e.dst = y) v w)
    (hw : ∃ e ∈ es, e.src = w) :
    v < w ∨ ∃ a < n, Relation.ReflTransGen (fun x y => ∃ e ∈ es, e.src = x ∧ e.dst = y) v a ∧
      Relation.ReflTransGen (fun x y => ∃ e ∈ es, e.src = x ∧ e.dst = y) a w := by
  have hnot_sink : ∀ e ∈ es, (∃ e' ∈ es, e'.src = e.dst) → ¬∀ e' ∈ es, e'.src ≠ e.dst :=
    fun _ _ ⟨e', he', hs⟩ hsink => hsink e' he' hs
  induction h with
  | single hvw =>
    obtain ⟨e, he, rfl, rfl⟩ := hvw
    rcases hU e he with hlt | hloc | hsink
    · exact .inl hlt
    · exact .inr ⟨e.dst, hloc, .single ⟨e, he, rfl, rfl⟩, .refl⟩
    · exact absurd hsink (hnot_sink e he hw)
  | tail hvu huw ih =>
    obtain ⟨e, he, rfl, rfl⟩ := huw
    rcases hU e he with hlt | hloc | hsink
    · rcases ih ⟨e, he, rfl⟩ with hvu' | ⟨a, ha, hva, hau⟩
      · exact .inl (hvu'.trans hlt)
      · exact .inr ⟨a, ha, hva, hau.tail ⟨e, he, rfl, rfl⟩⟩
    · exact .inr ⟨e.dst, hloc, (hvu.tail ⟨e, he, rfl, rfl⟩).to_reflTransGen, .refl⟩
    · exact absurd hsink (hnot_sink e he hw)

-- So every cycle passes through a local.
theorem UpOrSink.exists_local_cycle (hU : UpOrSink n es) {v : Local}
    (h : Relation.TransGen (fun x y => ∃ e ∈ es, e.src = x ∧ e.dst = y) v v) :
    ∃ a < n, Relation.ReflTransGen (fun x y => ∃ e ∈ es, e.src = x ∧ e.dst = y) v a ∧
      Relation.ReflTransGen (fun x y => ∃ e ∈ es, e.src = x ∧ e.dst = y) a v ∧
      Relation.TransGen (fun x y => ∃ e ∈ es, e.src = x ∧ e.dst = y) a a := by
  obtain ⟨_, ⟨e, he, hs, -⟩, -⟩ := Relation.TransGen.head'_iff.mp h
  rcases hU.lt_or_local h ⟨e, he, hs⟩ with hlt | ⟨a, ha, hva, hav⟩
  · exact absurd hlt (Nat.lt_irrefl v)
  · exact ⟨a, ha, hva, hav, (Relation.TransGen.trans_right hav h).trans_left hva⟩

-- Edges appended to a graph of `L` nodes that leave a local or a new node, and climb, end at a
-- local, or end at a new node none of them leaves, keep the shape.
theorem UpOrSink.append (hU : UpOrSink n es) {L : Nat} (hE : EdgesBelow es L)
    {t : List GraphEdge} (ht : ∀ e ∈ t, (e.src < n ∨ L ≤ e.src) ∧
      (e.src < e.dst ∨ e.dst < n ∨ (L ≤ e.dst ∧ ∀ e' ∈ t, e'.src ≠ e.dst))) :
    UpOrSink n (es ++ t) := by
  intro e he
  rcases List.mem_append.mp he with he | he
  · rcases hU e he with hlt | hloc | hsink
    · exact .inl hlt
    · exact .inr (.inl hloc)
    · -- an old sink past the locals stays one: the new edges leave locals or new nodes
      refine (Nat.lt_or_ge e.dst n).elim (fun h => .inr (.inl h)) fun hge => .inr (.inr ?_)
      intro e' he'
      rcases List.mem_append.mp he' with he' | he'
      · exact hsink e' he'
      · rcases (ht e' he').1 with hs | hs
        · exact (Nat.lt_of_lt_of_le hs hge).ne
        · exact (Nat.lt_of_lt_of_le (hE e he).2 hs).ne'
  · rcases (ht e he).2 with hlt | hloc | ⟨hL, hsink⟩
    · exact .inl hlt
    · exact .inr (.inl hloc)
    · refine .inr (.inr fun e' he' => ?_)
      rcases List.mem_append.mp he' with he' | he'
      · exact (Nat.lt_of_lt_of_le (hE e' he').1 hL).ne
      · exact hsink e' he'

end Cycle

section Climbs

variable {n : Nat} {r : Local} {g g' g₁ : Graph}

-- Each edge of a projection chain from `ret` into fresh nodes from `L` climbs, stays below the
-- chain's end, and leaves `ret`, an index local, or a node of the chain.
theorem chainEdges_climb {ret L : Local} {elems : List PlaceElem} (hret : ret < L) (hn : n ≤ L)
    (hidx : elems.all (·.localsBelow n)) : ∀ e ∈ chainEdges ret L elems,
      e.src < e.dst ∧ e.dst < L + elems.length ∧ (e.src = ret ∨ e.src < n ∨ L ≤ e.src) := by
  induction elems generalizing ret L with
  | nil => simp [chainEdges]
  | cons elem rest ih =>
    simp only [List.all_cons, Bool.and_eq_true] at hidx
    intro e he
    simp only [List.length_cons]
    rcases List.mem_append.mp he with he | he
    · obtain ⟨hd, hs | hs⟩ := stepEdges_into e he
      · dsimp only [Local] at *
        exact ⟨by omega, by omega, .inl hs⟩
      · have hlt := PlaceElem.indexLocal_lt hidx.1 hs
        dsimp only [Local] at *
        exact ⟨by omega, by omega, .inr (.inl hlt)⟩
    · obtain ⟨hlt, hdst, hsrc⟩ := ih (Nat.lt_succ_self L) (Nat.le_succ_of_le hn) hidx.2 e he
      dsimp only [Local] at *
      exact ⟨hlt, by omega, by omega⟩

-- What a part of an instruction that draws edges into `r` appends: nodes, and edges that leave a
-- local or a node it created, and climb or end at `r`.
structure Climbs (n : Nat) (r : Local) (g g' : Graph) : Prop where
  length_le : g.nodes.length ≤ g'.nodes.length
  edges : ∃ t, g'.edges = g.edges ++ t ∧
    ∀ e ∈ t, (e.src < n ∨ g.nodes.length ≤ e.src) ∧ (e.src < e.dst ∨ e.dst = r)

theorem Climbs.refl (g : Graph) : Climbs n r g g :=
  ⟨le_rfl, [], (List.append_nil _).symm, by simp⟩

theorem Climbs.trans (h₁ : Climbs n r g g₁) (h₂ : Climbs n r g₁ g') : Climbs n r g g' := by
  obtain ⟨t₁, he₁, ht₁⟩ := h₁.edges
  obtain ⟨t₂, he₂, ht₂⟩ := h₂.edges
  refine ⟨h₁.length_le.trans h₂.length_le, t₁ ++ t₂, by rw [he₂, he₁, List.append_assoc], ?_⟩
  intro e he
  rcases List.mem_append.mp he with he | he
  · exact ht₁ e he
  · exact ⟨(ht₂ e he).1.imp_right h₁.length_le.trans, (ht₂ e he).2⟩

theorem Climbs.modifyNode {i : Local} {f : GraphNode → GraphNode} (h : g.modifyNode i f = .ok g') :
    Climbs n r g g' := by
  obtain ⟨-, rfl⟩ := modifyNode_eq_ok.mp h
  exact ⟨by simp, [], by simp, by simp⟩

theorem Climbs.andModify (h : Climbs n r g g₁) {i : Local} {f : GraphNode → GraphNode}
    (h₂ : g₁.modifyNode i f = .ok g') : Climbs n r g g' :=
  h.trans (Climbs.modifyNode h₂)

-- An edge into `r` from a local or a node created since `g`.
theorem Climbs.addNodeEdge (hc : Climbs n r g g₁) {src : Local} {op : EdgeOp} {e : EdgeIdx}
    (hsrc : src < n ∨ g.nodes.length ≤ src) (h : g₁.addNodeEdge src r op = .ok (g', e)) :
    Climbs n r g g' := by
  obtain ⟨t, he, ht⟩ := hc.edges
  obtain ⟨m, -, -, -, rfl⟩ := addNodeEdge_spec h
  refine ⟨by simpa using hc.length_le, t ++ [_], by rw [he, List.append_assoc], fun e' he' => ?_⟩
  rcases List.mem_append.mp he' with he' | he'
  · exact ht e' he'
  · obtain rfl := List.mem_singleton.mp he'
    exact ⟨hsrc, .inr rfl⟩

theorem Climbs.addConstEdge {text : String} {op : EdgeOp} {e : EdgeIdx}
    (h : g.addConstEdge text r op = .ok (g', e)) : Climbs n r g g' := by
  obtain ⟨m, -, -, rfl⟩ := addConstEdge_spec h
  exact ⟨by simp, _, rfl, by simp⟩

-- `parse_place` appends one node per projection and a chain of climbing edges that leave a local
-- or a node of the chain, and returns the base local or the chain's last node.
theorem parsePlace_climbs (hn : n ≤ g.nodes.length) {place : Place} {s : Local}
    (hp : place.localsBelow n) (h : g.parsePlace place = .ok (g', s)) :
    g'.nodes.length = g.nodes.length + place.projection.length ∧
      (∃ t, g'.edges = g.edges ++ t ∧ ∀ e ∈ t, (e.src < n ∨ g.nodes.length ≤ e.src) ∧
        e.src < e.dst ∧ e.dst < g.nodes.length + place.projection.length) ∧
      s = if place.projection = [] then place.local
        else g.nodes.length + place.projection.length - 1 := by
  simp only [Place.localsBelow, Bool.and_eq_true, decide_eq_true_eq] at hp
  obtain ⟨ha, rfl⟩ := Appends.parseSteps h
  refine ⟨ha.length_eq, ⟨_, ha.edges_eq, fun e he => ?_⟩, rfl⟩
  obtain ⟨hlt, hdst, hsrc⟩ := chainEdges_climb (Nat.lt_of_lt_of_le hp.1 hn) hn hp.2 e he
  exact ⟨hsrc.elim (fun h => .inl (h ▸ hp.1)) id, hlt, hdst⟩

theorem Climbs.addPlaceEdge (hn : n ≤ g.nodes.length) {place : Place} {op : EdgeOp}
    (hp : place.localsBelow n) (h : g.addPlaceEdge place r op = .ok g') : Climbs n r g g' := by
  simp only [Graph.addPlaceEdge, bind_eq_ok] at h
  obtain ⟨⟨g₁, s⟩, h₁, h₂⟩ := h
  obtain ⟨e, h₂⟩ := fst_map_eq_ok.mp h₂
  obtain ⟨hlen, ⟨t, he, ht⟩, rfl⟩ := parsePlace_climbs hn hp h₁
  have hc : Climbs n r g g₁ :=
    ⟨hlen ▸ Nat.le_add_right _ _, t, he, fun e he => ⟨(ht e he).1, .inl (ht e he).2.1⟩⟩
  refine hc.addNodeEdge ?_ h₂
  split_ifs
  · exact .inl (Place.local_lt hp)
  · exact .inr (Nat.le_sub_one_of_lt (Nat.lt_add_of_pos_right (List.length_pos.mpr ‹_›)))

theorem Climbs.addOperand (hn : n ≤ g.nodes.length) {operand : Operand}
    (hop : operand.localsBelow n) (h : g.addOperand operand r = .ok g') : Climbs n r g g' := by
  cases operand with
  | copy place | move place => exact Climbs.addPlaceEdge hn hop h
  | constant c =>
    obtain ⟨e, h⟩ := fst_map_eq_ok.mp h
    exact Climbs.addConstEdge h

theorem Climbs.addOperands (hn : n ≤ g.nodes.length) {operands : List Operand}
    (hops : operands.all (·.localsBelow n)) (h : g.addOperands r operands = .ok g') :
    Climbs n r g g' := by
  induction operands generalizing g with
  | nil => exact (pure_eq_ok.mp h) ▸ Climbs.refl g
  | cons operand rest ih =>
    simp only [Graph.addOperands, bind_eq_ok, List.all_cons, Bool.and_eq_true] at h hops
    obtain ⟨g₁, h₁, h₂⟩ := h
    have hc₁ := Climbs.addOperand hn hops.1 h₁
    exact hc₁.trans (ih (le_trans hn hc₁.length_le) hops.2 h₂)

theorem Climbs.addRvalue (hn : n ≤ g.nodes.length) {rvalue : Rvalue} (hrv : rvalue.localsBelow n)
    (h : g.addRvalue rvalue r = .ok g') : Climbs n r g g' := by
  cases rvalue <;> simp only [Graph.addRvalue, bind_eq_ok, Rvalue.localsBelow,
    Bool.and_eq_true] at h hrv
  case use | «repeat» | cast | unaryOp | shallowInitBox =>
    obtain ⟨g₁, h₁, h₂⟩ := h
    exact (Climbs.addOperand hn hrv h₁).andModify h₂
  case ref | len | discriminant | copyForDeref =>
    obtain ⟨g₁, h₁, h₂⟩ := h
    exact (Climbs.addPlaceEdge hn hrv h₁).andModify h₂
  case binaryOp =>
    obtain ⟨g₁, h₁, g₂, h₂, h₃⟩ := h
    have hc₁ := Climbs.addOperand hn hrv.1 h₁
    exact (hc₁.trans (Climbs.addOperand (le_trans hn hc₁.length_le) hrv.2 h₂)).andModify h₃
  case aggregate kind _ =>
    obtain ⟨g₁, h₁, h₂⟩ := h
    cases hk : aggKind kind <;> simp only [hk, throw_ne_ok] at h₂
    exact (Climbs.addOperands hn hrv h₁).andModify h₂
  case nullaryOp =>
    obtain ⟨g₁, h₁, h₂⟩ := h
    obtain ⟨e, h₁⟩ := fst_map_eq_ok.mp h₁
    exact (Climbs.addConstEdge h₁).andModify h₂
  case threadLocalRef | rawPtr => exact absurd h throw_ne_ok

theorem Climbs.addCall (hn : n ≤ g.nodes.length) {func : Operand} {args : List Operand}
    (hf : func.localsBelow n) (hargs : args.all (·.localsBelow n)) (h : g.addCall func args r = .ok g') :
    Climbs n r g g' := by
  cases func with
  | constant c =>
    cases c with
    | val ty text =>
      cases hk : ty.kind with
      | fnDef defId =>
        simp only [Graph.addCall, hk, bind_eq_ok] at h
        obtain ⟨g₁, h₁, h₂⟩ := h
        exact (Climbs.addOperands hn hargs h₁).andModify h₂
      | other =>
        simp only [Graph.addCall, hk, pure_eq_ok] at h
        exact h ▸ Climbs.refl g
    | ty | unevaluated => exact (pure_eq_ok.mp h) ▸ Climbs.refl g
  | move place =>
    simp only [Graph.addCall, bind_eq_ok] at h
    obtain ⟨g₁, h₁, g₂, h₂, h₃⟩ := h
    have hc₁ := Climbs.addOperand hn hf h₁
    exact (hc₁.trans (Climbs.addOperands (le_trans hn hc₁.length_le) hargs h₂)).andModify h₃
  | copy place => exact absurd h throw_ne_ok

end Climbs

section Run

variable {n : Nat} {g g' : Graph}

-- One instruction keeps the shape: a statement's destination chain climbs, and what its right-hand
-- side draws into a projected destination ends at the chain's last node, which no edge leaves.
theorem addInstr_upOrSink (hU : UpOrSink n g.edges) (hE : EdgesBelow g.edges g.nodes.length)
    (hn : n ≤ g.nodes.length) {instr : Instr} (hi : instr.localsBelow n)
    (h : g.addInstr instr = .ok g') : UpOrSink n g'.edges := by
  cases instr with
  | statement statement =>
    obtain ⟨kind, span⟩ := statement
    cases kind with
    | other => exact (pure_eq_ok.mp h) ▸ hU
    | assign place rvalue =>
      simp only [Instr.localsBelow, Bool.and_eq_true] at hi
      simp only [Graph.addInstr, Graph.addStatmToGraph, bind_eq_ok] at h
      obtain ⟨⟨g₁, r⟩, h₁, g₂, h₂, g₃, h₃, h₄⟩ := h
      dsimp only at h₂ h₃ h₄
      obtain ⟨hlen, ⟨t₁, he₁, ht₁⟩, hr⟩ := parsePlace_climbs hn hi.1 h₁
      obtain ⟨-, rfl⟩ := modifyNode_eq_ok.mp h₂
      have hc := (Climbs.addRvalue (by simp only [List.length_modify, hlen]; omega) hi.2 h₃).andModify h₄
      obtain ⟨t₂, he₂, ht₂⟩ := hc.edges
      simp only [List.length_modify, hlen] at ht₂
      rw [he₂, he₁, List.append_assoc]
      refine hU.append hE fun e he => ?_
      rcases List.mem_append.mp he with he | he
      · exact ⟨(ht₁ e he).1, .inl (ht₁ e he).2.1⟩
      · obtain ⟨hsrc, hdst⟩ := ht₂ e he
        refine ⟨hsrc.imp_right (le_trans (Nat.le_add_right _ _)), hdst.imp_right fun hd => ?_⟩
        split_ifs at hr with hp
        · -- the statement writes a local
          exact .inl (hd ▸ hr ▸ Place.local_lt hi.1)
        · -- it writes through a projection: the chain's last node is left by no new edge
          have hk := List.length_pos.mpr hp
          refine .inr ⟨by dsimp only [Local] at *; omega, fun e' he' => ?_⟩
          rcases List.mem_append.mp he' with he' | he'
          · have := ht₁ e' he'
            dsimp only [Local] at *
            omega
          · have := (ht₂ e' he').1
            dsimp only [Local] at *
            omega
  | terminator terminator =>
    obtain ⟨kind, span⟩ := terminator
    cases kind with
    | other => exact (pure_eq_ok.mp h) ▸ hU
    | call func args destination =>
      simp only [Instr.localsBelow, Bool.and_eq_true] at hi
      simp only [Graph.addInstr, Graph.addTerminatorToGraph, bind_eq_ok] at h
      obtain ⟨g₁, h₁, g₂, h₂, h₃⟩ := h
      have hc := ((Climbs.addCall hn hi.1.1 hi.1.2 h₁).andModify h₂).andModify h₃
      obtain ⟨t, he, ht⟩ := hc.edges
      rw [he]
      refine hU.append hE fun e he => ⟨(ht e he).1, (ht e he).2.imp_right fun hd => .inl ?_⟩
      exact hd ▸ Place.local_lt hi.2

-- Every graph the builder produces from `Graph::new` has the shape.
theorem translate_upOrSink {instrs : List Instr} (hg : g.WellFormed) (hU : UpOrSink g.nLocals g.edges)
    (hi : ∀ instr ∈ instrs, instr.localsBelow g.nLocals) (h : g.translate instrs = .ok g') :
    UpOrSink g.nLocals g'.edges := by
  induction instrs generalizing g with
  | nil => exact (pure_eq_ok.mp h) ▸ hU
  | cons instr rest ih =>
    simp only [Graph.translate, bind_eq_ok] at h
    obtain ⟨g₁, h₁, h₂⟩ := h
    obtain ⟨hg₁, hgrow⟩ := hg.addInstr (hi instr (List.mem_cons_self _ _)) h₁
    have hU₁ := addInstr_upOrSink hU hg.edgesBelow hg.nLocals_le (hi instr (List.mem_cons_self _ _)) h₁
    rw [← hgrow.nLocals_eq] at hU₁
    have := ih hg₁ hU₁ (fun i hm => hgrow.nLocals_eq ▸ hi i (List.mem_cons_of_mem _ hm)) h₂
    rwa [hgrow.nLocals_eq] at this

-- So every graph the builder produces from `Graph::new` has the shape.
theorem translate_new_upOrSink {instrs : List Instr} {defId : DefId} {span : Span} {argc n : Nat}
    (hi : ∀ instr ∈ instrs, instr.localsBelow n) (h : (Graph.new defId span argc n).translate instrs = .ok g') :
    UpOrSink n g'.edges :=
  translate_upOrSink (wellFormed_new defId span argc n) (fun _ h => absurd h (List.not_mem_nil _)) hi h

end Run

end RapxDataflow.Graph
