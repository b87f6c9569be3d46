import RapxDataflow.Query.Search
import RapxDataflow.Graph.WellFormed

namespace RapxDataflow.Graph

-- An edge of the edge table from `x` to `y`, and the directed paths such edges make.
def EdgeStep (g : Graph) (x y : Local) : Prop :=
  ∃ edge ∈ g.edges, edge.src = x ∧ edge.dst = y

def Path (g : Graph) : Local → Local → Prop :=
  Relation.ReflTransGen g.EdgeStep

section Adjacency

variable {g : Graph} {V : EdgeIdx → Prop} {x y : Local}

-- In a well-formed graph a step along an in-edge is an edge of the table read backwards, and
-- a step along an out-edge is an edge of the table from a plain node.
theorem WellFormed.adjStep_upside_iff (hg : g.WellFormed) :
    g.AdjStep V .upside x y ↔ ∃ e edge, g.edges[e]? = some edge ∧ V e ∧ edge.src = y ∧ edge.dst = x := by
  constructor
  · rintro ⟨n, e, edge, hn, hedge, hv, he, rfl⟩
    rw [hg.in_edges x n hn, mem_idsWhere] at he
    obtain ⟨edge', hedge', hdst⟩ := he
    obtain rfl : edge = edge' := Option.some_injective _ (hedge.symm.trans hedge')
    exact ⟨e, edge, hedge, hv, rfl, by simpa using hdst⟩
  · rintro ⟨e, edge, hedge, hv, rfl, rfl⟩
    obtain ⟨n, hn, -⟩ := hg.dst_plain edge (List.getElem?_mem hedge)
    refine ⟨n, e, edge, hn, hedge, hv, ?_, rfl⟩
    rw [hg.in_edges _ n hn, mem_idsWhere]
    exact ⟨edge, hedge, by simp⟩

theorem WellFormed.adjStep_downside_iff (hg : g.WellFormed) :
    g.AdjStep V .downside x y ↔
      (∃ e edge, g.edges[e]? = some edge ∧ V e ∧ edge.src = x ∧ edge.dst = y) ∧ g.Plain x := by
  constructor
  · rintro ⟨n, e, edge, hn, hedge, hv, he, rfl⟩
    rw [hg.out_edges x n hn] at he
    split_ifs at he with hc
    · simp at he
    obtain ⟨edge', hedge', hsrc⟩ := mem_idsWhere.mp he
    obtain rfl : edge = edge' := Option.some_injective _ (hedge.symm.trans hedge')
    exact ⟨⟨e, edge, hedge, hv, by simpa using hsrc, rfl⟩, n, hn, by simpa using hc⟩
  · rintro ⟨⟨e, edge, hedge, hv, rfl, rfl⟩, n, hn, hc⟩
    refine ⟨n, e, edge, hn, hedge, hv, ?_, rfl⟩
    rw [hg.out_edges _ n hn, hc, if_neg Bool.false_ne_true, mem_idsWhere]
    exact ⟨edge, hedge, by simp⟩

theorem edgeStep_iff : g.EdgeStep x y ↔
    ∃ (e : EdgeIdx) (edge : GraphEdge), g.edges[e]? = some edge ∧ True ∧ edge.src = x ∧ edge.dst = y := by
  constructor
  · rintro ⟨edge, hmem, h⟩
    obtain ⟨e, he⟩ := List.mem_iff_getElem?.mp hmem
    exact ⟨e, edge, he, trivial, h⟩
  · rintro ⟨_, edge, he, -, h⟩
    exact ⟨edge, List.getElem?_mem he, h⟩

theorem WellFormed.adjStep_upside (hg : g.WellFormed) :
    g.AdjStep (fun _ => True) .upside x y ↔ g.EdgeStep y x := by
  rw [hg.adjStep_upside_iff, edgeStep_iff]

theorem WellFormed.adjStep_downside (hg : g.WellFormed) :
    g.AdjStep (fun _ => True) .downside x y ↔ g.EdgeStep x y ∧ g.Plain x := by
  rw [hg.adjStep_downside_iff, edgeStep_iff]

theorem WellFormed.reach_upside (hg : g.WellFormed) {a b : Local} :
    Relation.ReflTransGen (g.AdjStep (fun _ => True) .upside) a b ↔ g.Path b a := by
  have : g.AdjStep (fun _ => True) .upside = Function.swap g.EdgeStep :=
    funext₂ fun _ _ => propext hg.adjStep_upside
  rw [this, Relation.reflTransGen_swap, Path]

-- Every node a downside walk from a plain node reaches is a destination, so plain: the
-- constant nodes' missing out-edges are never needed.
theorem WellFormed.reach_downside (hg : g.WellFormed) {a b : Local} (ha : g.Plain a) :
    Relation.ReflTransGen (g.AdjStep (fun _ => True) .downside) a b ↔ g.Path a b := by
  constructor
  · exact Relation.ReflTransGen.mono fun x y h => (hg.adjStep_downside.mp h).1
  · intro h
    induction h using Relation.ReflTransGen.head_induction_on with
    | refl => exact .refl
    | @head x y hxy _ ih =>
      obtain ⟨edge, hmem, hsrc, rfl⟩ := hxy
      exact .head (hg.adjStep_downside.mpr ⟨⟨edge, hmem, hsrc, rfl⟩, ha⟩) (ih (hg.dst_plain edge hmem))

end Adjacency

section Connected

variable {g : Graph} {t : Local}

theorem connectedOperator_spec {v : Local} {s s' : Bool} {st : DFSStatus}
    (h : connectedOperator t g v s = .ok (st, s')) :
    st = (if v = t then .stop else .continue) ∧ s' = decide (st = .stop) := by
  simp only [connectedOperator, pure_eq_ok, Prod.mk.injEq, decide_eq_true_eq] at h
  obtain ⟨rfl, rfl⟩ := h
  split_ifs <;> simp_all

theorem alwaysTrueEdgeValidator_admits (e : EdgeIdx) (st : DFSStatus)
    (h : alwaysTrueEdgeValidator g e = .ok st) : st = .continue ↔ True :=
  iff_true_intro (pure_eq_ok.mp h).symm

-- One search of `is_connected`: its `find` cell ends true exactly when the search reaches
-- the target along admitted steps.
theorem dfs_connected_iff {dir : Direction} {fuel : Nat} {a : Local} {s s' : Bool}
    {st : DFSStatus}
    (h : g.dfs dir (connectedOperator t) alwaysTrueEdgeValidator false fuel a s = .ok (st, s')) :
    s' = true ↔ Relation.ReflTransGen (g.AdjStep (fun _ => True) dir) a t := by
  have hop := fun v s st s' (h : connectedOperator t g v s = .ok (st, s')) =>
    connectedOperator_spec h
  have hstop : ∀ v, (if v = t then DFSStatus.stop else .continue) = .stop ↔ v = t := fun v => by
    split_ifs <;> simp_all
  rw [dfs_state (fun v s st s' h => (hop v s st s' h).2) h, decide_eq_true_iff,
    dfs_stop_iff (fun v s st s' h => (hop v s st s' h).1) alwaysTrueEdgeValidator_admits h,
    searchPath_target_iff hstop]

-- `is_connected(a, b)` answers whether the edge table holds a directed path between the two
-- nodes, one way or the other.
theorem WellFormed.isConnected_iff (hg : g.WellFormed) {fuel : Nat} {a : Local} (ha : g.Plain a)
    {r : Bool} (h : g.isConnected fuel a t = .ok r) : r = true ↔ g.Path a t ∨ g.Path t a := by
  simp only [isConnected, bind_eq_ok] at h
  obtain ⟨⟨st₁, find₁⟩, h₁, h⟩ := h
  have hdown := (dfs_connected_iff h₁).trans (hg.reach_downside ha)
  cases find₁ with
  | true =>
    obtain rfl := pure_eq_ok.mp h
    exact iff_of_true rfl (.inl (hdown.mp rfl))
  | false =>
    simp only [Bool.not_false, ↓reduceIte, bind_eq_ok, pure_eq_ok] at h
    obtain ⟨⟨st₂, find₂⟩, h₂, rfl⟩ := h
    rw [(dfs_connected_iff h₂).trans hg.reach_upside]
    exact ⟨.inr, (·.resolve_left fun hp => Bool.false_ne_true (hdown.mpr hp))⟩

end Connected

section Deps

variable {α β ε : Type} {f : α → Except ε β}

theorem mapM_eq_ok {l : List α} {r : List β} (h : l.mapM f = .ok r) :
    List.Forall₂ (fun a b => f a = .ok b) l r := by
  induction l generalizing r with
  | nil => obtain rfl := pure_eq_ok.mp h; exact .nil
  | cons a rest ih =>
    simp only [List.mapM_cons, bind_eq_ok, pure_eq_ok] at h
    obtain ⟨b, hb, bs, hbs, rfl⟩ := h
    exact .cons hb (ih hbs)

theorem mapM_ok {l : List α} (h : ∀ a ∈ l, ∃ b, f a = .ok b) : ∃ r, l.mapM f = .ok r := by
  induction l with
  | nil => exact ⟨[], rfl⟩
  | cons a rest ih =>
    obtain ⟨b, hb⟩ := h a (List.mem_cons_self _ _)
    obtain ⟨bs, hbs⟩ := ih fun a ha => h a (List.mem_cons_of_mem _ ha)
    exact ⟨b :: bs, by simp only [List.mapM_cons, hb, hbs, ok_bind]; rfl⟩

-- `param_return_deps` has one entry per slot `0..=arg_count`, each the answer of
-- `is_connected(i, 0)`.
theorem paramReturnDeps_spec {g : Graph} {fuel : Nat} {deps : List Bool}
    (h : g.paramReturnDeps fuel = .ok deps) :
    deps.length = g.argc + 1 ∧ ∀ i (hi : i < deps.length), g.isConnected fuel i 0 = .ok deps[i] := by
  have h₂ := mapM_eq_ok h
  have hlen := h₂.length_eq
  simp only [List.length_range] at hlen
  refine ⟨hlen.symm, fun i hi => ?_⟩
  have := (List.forall₂_iff_get.mp h₂).2 i (by simpa [hlen] using hi) hi
  simpa using this

end Deps

section Termination

variable {g : Graph} (rank : Local → Nat) {fuel : Nat}

-- When every edge climbs a rank below `fuel`, both searches of `is_connected` end: the
-- downside one climbs the ranks and the upside one descends them.
theorem WellFormed.isConnected_ok (hg : g.WellFormed)
    (hrank : ∀ edge ∈ g.edges, rank edge.src < rank edge.dst)
    (hfuel : ∀ v < g.nodes.length, rank v < fuel) {a : Local} (ha : g.Plain a) (b : Local) :
    ∃ r, g.isConnected fuel a b = .ok r := by
  have hop : ∀ v (s : Bool), v < g.nodes.length → ∃ r, connectedOperator b g v s = .ok r :=
    fun _ _ _ => ⟨_, rfl⟩
  have hval : ∀ e (edge : GraphEdge), g.edges[e]? = some edge →
      ∃ st, alwaysTrueEdgeValidator g e = .ok st := fun _ _ _ => ⟨_, rfl⟩
  have hdown : ∀ x y, g.AdjStep (fun _ => True) .downside x y →
      fuel - 1 - rank y < fuel - 1 - rank x := by
    intro x y hxy
    obtain ⟨⟨edge, hmem, rfl, rfl⟩, -⟩ := hg.adjStep_downside.mp hxy
    have := hfuel _ (hg.dst_lt hmem)
    have := hrank edge hmem
    omega
  have hup : ∀ x y, g.AdjStep (fun _ => True) .upside x y → rank y < rank x := by
    intro x y hxy
    obtain ⟨edge, hmem, rfl, rfl⟩ := hg.adjStep_upside.mp hxy
    exact hrank edge hmem
  have ha' := hfuel a ha.lt
  obtain ⟨⟨_, find⟩, h₁⟩ : ∃ r, g.dfs .downside (connectedOperator b) alwaysTrueEdgeValidator false
      fuel a false = .ok r := dfs_ok_of_measure (fun v => fuel - 1 - rank v) hop hval
    alwaysTrueEdgeValidator_admits hg.adjacent_lt hdown false ha.lt (by dsimp only; omega)
  simp only [isConnected, h₁, ok_bind]
  cases find with
  | true => exact ⟨_, rfl⟩
  | false =>
    obtain ⟨⟨_, find₂⟩, h₂⟩ : ∃ r, g.dfs .upside (connectedOperator b) alwaysTrueEdgeValidator false
        fuel a false = .ok r := dfs_ok_of_measure rank hop hval alwaysTrueEdgeValidator_admits
      hg.adjacent_lt hup false ha.lt ha'
    simp only [Bool.not_false, ↓reduceIte, h₂, ok_bind]
    exact ⟨_, rfl⟩

end Termination

section Builder

variable {instrs : List Instr} {defId : DefId} {span : Span} {argc n : Nat} {g : Graph}

theorem isConnected_terminates_of_rank (hi : ∀ instr ∈ instrs, instr.localsBelow n)
    (hg : (Graph.new defId span argc n).translate instrs = .ok g) (rank : Local → Nat)
    (hrank : ∀ edge ∈ g.edges, rank edge.src < rank edge.dst) {fuel : Nat}
    (hfuel : ∀ v < g.nodes.length, rank v < fuel) :
    (∀ a < n, ∀ b, ∃ r, g.isConnected fuel a b = .ok r) ∧
      (argc < n → ∃ deps, g.paramReturnDeps fuel = .ok deps) := by
  obtain ⟨hwf, hargc, hn⟩ := wellFormed_translate_new hi hg
  have hconn : ∀ a < n, ∀ b, ∃ r, g.isConnected fuel a b = .ok r := fun a ha b =>
    hwf.isConnected_ok rank hrank hfuel (hwf.locals_plain a (hn ▸ ha)) b
  refine ⟨hconn, fun hlt => mapM_ok fun i hi => hconn i ?_ 0⟩
  simp only [List.mem_range, hargc] at hi
  omega

-- `_0 = Add(copy _1, copy _2)` with two parameters: the spec's binary-op body, and its graph.
def addParams : List Instr :=
  [.statement ⟨.assign ⟨0, []⟩ (.binaryOp .add (.copy ⟨1, []⟩) (.copy ⟨2, []⟩)), dummySp⟩]

def addGraph : Graph where
  defId := ⟨0, 0⟩
  span := dummySp
  argc := 2
  nodes := [⟨.checkedBinaryOp, dummySp, 1, [], [0, 1]⟩, ⟨.nop, dummySp, 0, [0], []⟩,
    ⟨.nop, dummySp, 0, [1], []⟩]
  edges := [⟨1, 0, .copy, 0⟩, ⟨2, 0, .copy, 0⟩]
  nLocals := 3

theorem isConnected_terminates_addParams :
    (∀ instr ∈ addParams, instr.localsBelow 3) ∧
    (Graph.new ⟨0, 0⟩ dummySp 2 3).translate addParams = .ok addGraph ∧
    (∀ edge ∈ addGraph.edges, (if edge.src = 0 then 1 else 0) < if edge.dst = 0 then 1 else 0) ∧
    (∀ v < addGraph.nodes.length, (if v = 0 then 1 else 0) < 2) ∧
    (∀ a < 3, ∀ b, ∃ r, addGraph.isConnected 2 a b = .ok r) ∧
      (2 < 3 → ∃ deps, addGraph.paramReturnDeps 2 = .ok deps) :=
  ⟨by decide, rfl, by decide, by decide,
    isConnected_terminates_of_rank (by decide)
      (show (Graph.new ⟨0, 0⟩ dummySp 2 3).translate addParams = .ok addGraph from rfl)
      (fun v => if v = 0 then 1 else 0) (by decide) (by decide)⟩

-- `_3 = copy _1; _1 = copy _2; _2 = copy _3`: a swap through a temporary, whose copies
-- close the cycle 1 → 3 → 2 → 1.
def swapThroughTemp : List Instr :=
  [.statement ⟨.assign ⟨3, []⟩ (.use (.copy ⟨1, []⟩)), dummySp⟩,
   .statement ⟨.assign ⟨1, []⟩ (.use (.copy ⟨2, []⟩)), dummySp⟩,
   .statement ⟨.assign ⟨2, []⟩ (.use (.copy ⟨3, []⟩)), dummySp⟩]

def swapGraph : Graph where
  defId := ⟨0, 0⟩
  span := dummySp
  argc := 2
  nodes := [GraphNode.new, ⟨.use, dummySp, 1, [0], [1]⟩, ⟨.use, dummySp, 1, [1], [2]⟩,
    ⟨.use, dummySp, 1, [2], [0]⟩]
  edges := [⟨1, 3, .copy, 0⟩, ⟨2, 1, .copy, 0⟩, ⟨3, 2, .copy, 0⟩]
  nLocals := 4

-- The downside search from slot 1 goes round the cycle for as long as it has fuel.
theorem isConnected_swap_diverges :
    (Graph.new ⟨0, 0⟩ dummySp 2 4).translate swapThroughTemp = .ok swapGraph ∧
    (∀ fuel, swapGraph.isConnected fuel 1 0 = .error .outOfFuel) ∧
    ∀ fuel, swapGraph.paramReturnDeps fuel = .error .outOfFuel := by
  have hconn : ∀ fuel, swapGraph.isConnected fuel 1 0 = .error .outOfFuel := by
    intro fuel
    unfold isConnected
    rw [dfs_outOfFuel (fun x => x = 1 ∨ x = 2 ∨ x = 3) ?_ ?_ fuel false (.inl rfl)]
    · rfl
    · rintro x s (rfl | rfl | rfl) <;> exact ⟨_, rfl⟩
    · rintro x (rfl | rfl | rfl)
      · exact ⟨_, 0, [], _, rfl, rfl, rfl, rfl, by decide⟩
      · exact ⟨_, 1, [], _, rfl, rfl, rfl, rfl, by decide⟩
      · exact ⟨_, 2, [], _, rfl, rfl, rfl, rfl, by decide⟩
  refine ⟨rfl, hconn, fun fuel => ?_⟩
  cases fuel with
  | zero => rfl
  | succ fuel =>
    show [0, 1, 2].mapM _ = _
    simp only [List.mapM_cons, hconn, error_bind]
    rfl

-- On every built graph, `is_connected(a, b)` for a slot `a` answers whether a directed path
-- of the edge table joins `a` and `b` one way or the other, and `param_return_deps` lists
-- that answer for each slot `0..=argc` against the return slot.
theorem isConnected_iff_path (hi : ∀ instr ∈ instrs, instr.localsBelow n)
    (hg : (Graph.new defId span argc n).translate instrs = .ok g) :
    (∀ a b fuel r, a < n → g.isConnected fuel a b = .ok r → (r = true ↔ g.Path a b ∨ g.Path b a)) ∧
      (argc < n → ∀ fuel deps, g.paramReturnDeps fuel = .ok deps →
        deps.length = argc + 1 ∧ ∀ i (h : i < deps.length), deps[i] = true ↔ g.Path i 0 ∨ g.Path 0 i) := by
  obtain ⟨hwf, hargc, hn⟩ := wellFormed_translate_new hi hg
  have hconn : ∀ a b fuel r, a < n → g.isConnected fuel a b = .ok r →
      (r = true ↔ g.Path a b ∨ g.Path b a) :=
    fun a b fuel r ha h => hwf.isConnected_iff (hwf.locals_plain a (hn ▸ ha)) h
  refine ⟨hconn, fun hlt fuel deps h => ?_⟩
  obtain ⟨hlen, hdeps⟩ := paramReturnDeps_spec h
  exact ⟨hargc ▸ hlen, fun i hi => hconn i 0 fuel _ (by omega) (hdeps i hi)⟩

theorem isConnected_iff_path_addParams :
    (∀ instr ∈ addParams, instr.localsBelow 3) ∧
    (Graph.new ⟨0, 0⟩ dummySp 2 3).translate addParams = .ok addGraph ∧
    (∀ a b fuel r, a < 3 → addGraph.isConnected fuel a b = .ok r →
      (r = true ↔ addGraph.Path a b ∨ addGraph.Path b a)) ∧
      (2 < 3 → ∀ fuel deps, addGraph.paramReturnDeps fuel = .ok deps →
        deps.length = 2 + 1 ∧ ∀ i (h : i < deps.length),
          deps[i] = true ↔ addGraph.Path i 0 ∨ addGraph.Path 0 i) :=
  ⟨by decide, rfl, isConnected_iff_path (by decide)
    (show (Graph.new ⟨0, 0⟩ dummySp 2 3).translate addParams = .ok addGraph from rfl)⟩

end Builder

end RapxDataflow.Graph
