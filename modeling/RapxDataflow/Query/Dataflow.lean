import RapxDataflow.Graph.Acyclic
import RapxDataflow.Query.Equivalent
import RapxDataflow.Query.Safety

namespace RapxDataflow.Graph

section Hops

variable {es : List GraphEdge} {n : Nat}

-- A path that ends at a local splits, at the locals it passes through, into walks whose inner
-- nodes are markers or constants.
theorem transGen_iff_freshWalk {a b : Local} (hb : b < n) :
    Relation.TransGen (fun x y => ∃ e ∈ es, e.src = x ∧ e.dst = y) a b ↔
      Relation.TransGen (fun x y => y < n ∧ FreshWalk es n x y) a b := by
  refine ⟨fun h => ?_, Relation.TransGen.lift' id fun _ _ h => h.2.transGen⟩
  induction h using Relation.TransGen.head_induction_on with
  | base h => exact .single ⟨hb, .single h⟩
  | @ih a c hac _ ih =>
    by_cases hc : c < n
    · exact .head ⟨hc, .single hac⟩ ih
    · obtain ⟨c', ⟨hc', hw⟩, hrest⟩ := Relation.TransGen.head'_iff.mp ih
      exact .head' ⟨hc', .cons hac (Nat.le_of_not_lt hc) hw⟩ hrest

-- Two step relations that agree on the steps out of the locals, and step only to locals, have
-- the same paths from a local.
theorem transGen_of_agree {R S : Local → Local → Prop} (hRS : ∀ x < n, ∀ y, R x y → S x y)
    (hR : ∀ x y, R x y → y < n) {a b : Local} (ha : a < n) (h : Relation.TransGen R a b) :
    Relation.TransGen S a b := by
  induction h with
  | single h => exact .single (hRS _ ha _ h)
  | @tail c d hac hcd ih =>
    have hc : c < n := by
      cases hac with
      | single h => exact hR _ _ h
      | tail _ h => exact hR _ _ h
    exact ih.tail (hRS _ hc _ hcd)

end Hops

section Dataflow

variable {instrs : List Instr} {defId : DefId} {span : Span} {argc n : Nat} {G : Graph}

theorem transGen_edgeStep_iff_flow (hi : ∀ instr ∈ instrs, instr.localsBelow n)
    (hG : (Graph.new defId span argc n).translate instrs = .ok G) {a b : Local} (ha : a < n)
    (hb : b < n) : Relation.TransGen G.EdgeStep a b ↔ Relation.TransGen (Flow instrs) a b := by
  have hflow : ∀ x y, Flow instrs x y → x < n ∧ y < n := fun x y ⟨instr, hm, hp⟩ =>
    Instr.flows_lt (hi instr hm) _ hp
  have hagree : ∀ x < n, ∀ y, (y < n ∧ FreshWalk G.edges n x y) ↔ Flow instrs x y := fun x hx y =>
    ⟨fun ⟨hy, hw⟩ => (freshWalk_iff_flow hi hG hx hy).mp hw,
      fun hf => ⟨(hflow x y hf).2, (freshWalk_iff_flow hi hG hx (hflow x y hf).2).mpr hf⟩⟩
  change Relation.TransGen (fun x y => ∃ e ∈ G.edges, e.src = x ∧ e.dst = y) a b ↔ _
  rw [transGen_iff_freshWalk hb]
  exact ⟨transGen_of_agree (fun x hx y => (hagree x hx y).mp) (fun _ _ h => h.1) ha,
    transGen_of_agree (fun x hx y => (hagree x hx y).mpr) (fun x y h => (hflow x y h).2) ha⟩

-- What the graph means: in a graph the builder produces, one local reaches another exactly when
-- data flows from the one to the other through a chain of assignments and calls, each feeding
-- the locals it reads into the local it writes.
theorem path_iff_flow (hi : ∀ instr ∈ instrs, instr.localsBelow n)
    (hG : (Graph.new defId span argc n).translate instrs = .ok G) {a b : Local} (ha : a < n)
    (hb : b < n) : G.Path a b ↔ Relation.ReflTransGen (Flow instrs) a b := by
  rw [Path, Relation.reflTransGen_iff_eq_or_transGen, Relation.reflTransGen_iff_eq_or_transGen,
    transGen_edgeStep_iff_flow hi hG ha hb]

-- `_2 = copy (*_1)[_3]; _0 = move _2`, with three parameters.
def derefIndexProg : List Instr :=
  [.statement ⟨.assign ⟨2, []⟩ (.use (.copy ⟨1, [.deref, .index 3]⟩)), dummySp⟩,
   .statement ⟨.assign ⟨0, []⟩ (.use (.move ⟨2, []⟩)), dummySp⟩]

theorem path_iff_flow_derefIndex :
    (∀ instr ∈ derefIndexProg, instr.localsBelow 4) ∧
    ∃ G, (Graph.new ⟨0, 0⟩ dummySp 3 4).translate derefIndexProg = .ok G ∧
      (G.Path 1 0 ↔ Relation.ReflTransGen (Flow derefIndexProg) 1 0) := by
  obtain ⟨G, hG⟩ : ∃ G, (Graph.new ⟨0, 0⟩ dummySp 3 4).translate derefIndexProg = .ok G := ⟨_, rfl⟩
  exact ⟨by decide, G, hG, path_iff_flow (by decide) hG (by decide) (by decide)⟩

-- What the two queries answer: `is_connected(a, b)`, whenever it returns, says whether data flows
-- from `a` to `b` or from `b` to `a`, and `param_return_deps()` says, for the return slot and each
-- parameter, whether data flows between it and the return slot, one way or the other.
theorem queries_answer_flow (hi : ∀ instr ∈ instrs, instr.localsBelow n)
    (hG : (Graph.new defId span argc n).translate instrs = .ok G) :
    (∀ a < n, ∀ b < n, ∀ fuel r, G.isConnected fuel a b = .ok r →
      (r = true ↔ Relation.ReflTransGen (Flow instrs) a b ∨ Relation.ReflTransGen (Flow instrs) b a)) ∧
    (argc < n → ∀ fuel deps, G.paramReturnDeps fuel = .ok deps → deps.length = argc + 1 ∧
      ∀ i (h : i < deps.length), (deps[i] = true ↔
        Relation.ReflTransGen (Flow instrs) i 0 ∨ Relation.ReflTransGen (Flow instrs) 0 i)) := by
  obtain ⟨hg, hargc, hnl⟩ := wellFormed_translate_new hi hG
  have hpath : ∀ {a b : Local}, a < n → b < n →
      (G.Path a b ↔ Relation.ReflTransGen (Flow instrs) a b) := fun ha hb => by
    rw [Path, Relation.reflTransGen_iff_eq_or_transGen, Relation.reflTransGen_iff_eq_or_transGen,
      transGen_edgeStep_iff_flow hi hG ha hb]
  have hconn : ∀ a < n, ∀ b < n, ∀ fuel r, G.isConnected fuel a b = .ok r →
      (r = true ↔ Relation.ReflTransGen (Flow instrs) a b ∨
        Relation.ReflTransGen (Flow instrs) b a) := fun a ha b hb fuel r h => by
    rw [hg.isConnected_iff (hg.locals_plain a (hnl ▸ ha)) h, hpath ha hb, hpath hb ha]
  refine ⟨hconn, fun hn fuel deps h => ?_⟩
  obtain ⟨hlen, hdeps⟩ := paramReturnDeps_spec h
  rw [hargc] at hlen
  exact ⟨hlen, fun i hi' => hconn i (Nat.lt_of_lt_of_le (lt_of_lt_of_eq hi' hlen) hn) 0
    (Nat.lt_of_le_of_lt (Nat.zero_le _) hn) fuel _ (hdeps i hi')⟩

theorem queries_answer_flow_derefIndex :
    (∀ instr ∈ derefIndexProg, instr.localsBelow 4) ∧
    ∃ G, (Graph.new ⟨0, 0⟩ dummySp 3 4).translate derefIndexProg = .ok G ∧
      (∀ a < 4, ∀ b < 4, ∀ fuel r, G.isConnected fuel a b = .ok r →
        (r = true ↔ Relation.ReflTransGen (Flow derefIndexProg) a b ∨
          Relation.ReflTransGen (Flow derefIndexProg) b a)) ∧
      (3 < 4 → ∀ fuel deps, G.paramReturnDeps fuel = .ok deps → deps.length = 3 + 1 ∧
        ∀ i (h : i < deps.length), (deps[i] = true ↔
          Relation.ReflTransGen (Flow derefIndexProg) i 0 ∨
            Relation.ReflTransGen (Flow derefIndexProg) 0 i)) := by
  obtain ⟨G, hG⟩ : ∃ G, (Graph.new ⟨0, 0⟩ dummySp 3 4).translate derefIndexProg = .ok G := ⟨_, rfl⟩
  exact ⟨by decide, G, hG, queries_answer_flow (by decide) hG⟩

end Dataflow

section Acyclic

variable {instrs : List Instr} {defId : DefId} {span : Span} {argc n : Nat} {G : Graph}

-- A cycle of a built graph runs through a local, so it is a dataflow cycle of the body.
theorem exists_flow_cycle (hi : ∀ instr ∈ instrs, instr.localsBelow n)
    (hG : (Graph.new defId span argc n).translate instrs = .ok G) {v : Local}
    (h : Relation.TransGen G.EdgeStep v v) : ∃ a < n, Relation.TransGen (Flow instrs) a a := by
  obtain ⟨a, ha, -, -, hc⟩ := (translate_new_upOrSink hi hG).exists_local_cycle h
  exact ⟨a, ha, (transGen_edgeStep_iff_flow hi hG ha ha).mp hc⟩

-- The graph has a cycle exactly when some local lies on a dataflow cycle: marker and constant
-- nodes never close one.
theorem graph_cycle_iff_flow_cycle (hi : ∀ instr ∈ instrs, instr.localsBelow n)
    (hG : (Graph.new defId span argc n).translate instrs = .ok G) :
    (∃ v, Relation.TransGen G.EdgeStep v v) ↔ ∃ a < n, Relation.TransGen (Flow instrs) a a :=
  ⟨fun ⟨_, h⟩ => exists_flow_cycle hi hG h,
    fun ⟨a, ha, h⟩ => ⟨a, (transGen_edgeStep_iff_flow hi hG ha ha).mpr h⟩⟩

theorem graph_cycle_iff_flow_cycle_derefIndex :
    (∀ instr ∈ derefIndexProg, instr.localsBelow 4) ∧
    ∃ G, (Graph.new ⟨0, 0⟩ dummySp 3 4).translate derefIndexProg = .ok G ∧
      ((∃ v, Relation.TransGen G.EdgeStep v v) ↔
        ∃ a < 4, Relation.TransGen (Flow derefIndexProg) a a) := by
  obtain ⟨G, hG⟩ : ∃ G, (Graph.new ⟨0, 0⟩ dummySp 3 4).translate derefIndexProg = .ok G := ⟨_, rfl⟩
  exact ⟨by decide, G, hG, graph_cycle_iff_flow_cycle (by decide) hG⟩

open Classical in
-- In a graph without cycles, ranking each node by the number of nodes that reach it climbs along
-- every edge and stays below the number of nodes.
theorem WellFormed.exists_rank (hg : G.WellFormed) (hno : ∀ v, ¬Relation.TransGen G.EdgeStep v v) :
    ∃ rank : Local → Nat, (∀ edge ∈ G.edges, rank edge.src < rank edge.dst) ∧
      ∀ v < G.nodes.length, rank v < G.nodes.length := by
  let above : Local → Finset Local := fun v =>
    (Finset.range G.nodes.length).filter fun w => Relation.TransGen (Function.swap G.EdgeStep) v w
  refine ⟨fun v => (above v).card, fun edge he => card_above_lt (r := Function.swap G.EdgeStep)
    (fun _ _ ⟨edge', he', hs, _⟩ => hs ▸ hg.src_lt _ he') ⟨edge, he, rfl, rfl⟩
    fun h => hno _ h.swap, fun v hv => ?_⟩
  calc (above v).card < (Finset.range G.nodes.length).card :=
        Finset.card_lt_card ((Finset.ssubset_iff_of_subset (Finset.filter_subset _ _)).mpr
          ⟨v, Finset.mem_range.mpr hv, fun h => hno _ (Finset.mem_filter.mp h).2.swap⟩)
    _ = G.nodes.length := Finset.card_range _

-- On a body whose dataflow has no cycle, `is_connected` and `collect_equivalent_locals` from a
-- local, and `param_return_deps`, return once the fuel reaches the number of nodes.
theorem queries_terminate_of_acyclic (hi : ∀ instr ∈ instrs, instr.localsBelow n)
    (hG : (Graph.new defId span argc n).translate instrs = .ok G)
    (hacyc : ∀ a < n, ¬Relation.TransGen (Flow instrs) a a) {fuel : Nat}
    (hfuel : G.nodes.length ≤ fuel) :
    (∀ a < n, ∀ b, ∃ r, G.isConnected fuel a b = .ok r) ∧
      (∀ v < n, ∃ S, G.collectEquivalentLocals fuel v = .ok S) ∧
      (argc < n → ∃ deps, G.paramReturnDeps fuel = .ok deps) := by
  obtain ⟨hg, hargc, hnl⟩ := wellFormed_translate_new hi hG
  obtain ⟨rank, hrank, hbound⟩ := hg.exists_rank fun v h =>
    let ⟨a, ha, hc⟩ := exists_flow_cycle hi hG h
    hacyc a ha hc
  have hfuel' : ∀ v < G.nodes.length, rank v < fuel := fun v hv =>
    Nat.lt_of_lt_of_le (hbound v hv) hfuel
  have hconn : ∀ a < n, ∀ b, ∃ r, G.isConnected fuel a b = .ok r := fun a ha b =>
    hg.isConnected_ok rank hrank hfuel' (hg.locals_plain a (hnl ▸ ha)) b
  refine ⟨hconn, fun v hv => hg.collectEquivalentLocals_ok rank (fun edge he _ => hrank edge he)
    hfuel' (hg.locals_plain v (hnl ▸ hv)).lt, fun hlt => mapM_ok fun i hi => hconn i ?_ 0⟩
  simp only [List.mem_range, hargc] at hi
  omega

theorem queries_terminate_of_acyclic_addParams :
    (∀ instr ∈ addParams, instr.localsBelow 3) ∧
    (Graph.new ⟨0, 0⟩ dummySp 2 3).translate addParams = .ok addGraph ∧
    (∀ a < 3, ¬Relation.TransGen (Flow addParams) a a) ∧ addGraph.nodes.length ≤ 3 ∧
    (∀ a < 3, ∀ b, ∃ r, addGraph.isConnected 3 a b = .ok r) ∧
      (∀ v < 3, ∃ S, addGraph.collectEquivalentLocals 3 v = .ok S) ∧
      (2 < 3 → ∃ deps, addGraph.paramReturnDeps 3 = .ok deps) := by
  -- every flow of `_0 = Add(copy _1, copy _2)` ends at `_0` and starts elsewhere
  have hflow : ∀ x y, Flow addParams x y → y = 0 ∧ x ≠ 0 := by
    rintro x y ⟨instr, hm, hp⟩
    simp only [addParams, List.mem_singleton] at hm
    subst hm
    simp only [Instr.flows, Rvalue.reads, Operand.reads, Place.reads, List.filterMap_nil,
      List.cons_append, List.nil_append, if_true, List.map_cons, List.map_nil, List.mem_cons,
      Prod.mk.injEq, List.not_mem_nil, or_false] at hp
    rcases hp with ⟨rfl, rfl⟩ | ⟨rfl, rfl⟩ <;> exact ⟨rfl, by decide⟩
  have hacyc : ∀ a < 3, ¬Relation.TransGen (Flow addParams) a a := fun a _ h => by
    obtain ⟨c, -, hca⟩ := Relation.TransGen.tail'_iff.mp h
    obtain ⟨d, had, -⟩ := Relation.TransGen.head'_iff.mp h
    exact (hflow a d had).2 (hflow c a hca).1
  exact ⟨by decide, rfl, hacyc, by decide, queries_terminate_of_acyclic (by decide)
    (show (Graph.new ⟨0, 0⟩ dummySp 2 3).translate addParams = .ok addGraph from rfl) hacyc
    (by decide)⟩

end Acyclic

section Divergence

variable {instrs : List Instr} {defId : DefId} {span : Span} {argc n : Nat} {G : Graph}

-- Where no dataflow joins `a` and `b` but `a` lies downstream or upstream of a dataflow cycle,
-- `is_connected(a, b)` never answers, whatever the fuel: the downside search, or the upside
-- one after it, goes round the cycle until the fuel runs out. With `b` the return slot and `a` a
-- parameter, `param_return_deps()` never answers either.
theorem isConnected_outOfFuel_of_flow_cycle (hi : ∀ instr ∈ instrs, instr.localsBelow n)
    (hG : (Graph.new defId span argc n).translate instrs = .ok G) {a b : Local} (ha : a < n)
    (hb : b < n) (hab : ¬Relation.ReflTransGen (Flow instrs) a b)
    (hba : ¬Relation.ReflTransGen (Flow instrs) b a)
    (hcyc : ∃ c < n, (Relation.ReflTransGen (Flow instrs) a c ∨
      Relation.ReflTransGen (Flow instrs) c a) ∧ Relation.TransGen (Flow instrs) c c) :
    (∀ fuel, G.isConnected fuel a b = .error .outOfFuel) ∧
      (b = 0 → a ≤ argc → argc < n → ∀ fuel, G.paramReturnDeps fuel = .error .outOfFuel) := by
  obtain ⟨hg, hargc, hnl⟩ := wellFormed_translate_new hi hG
  obtain ⟨c, hc, hreach, hcc⟩ := hcyc
  have hconn : ∀ fuel, G.isConnected fuel a b = .error .outOfFuel :=
    hg.isConnected_outOfFuel (hg.locals_plain a (hnl ▸ ha)) (by rwa [path_iff_flow hi hG ha hb])
      (by rwa [path_iff_flow hi hG hb ha]) (by rwa [path_iff_flow hi hG ha hc, path_iff_flow hi hG hc ha])
      ((transGen_edgeStep_iff_flow hi hG hc hc).mpr hcc)
  refine ⟨hconn, fun hb0 hle hn fuel => ?_⟩
  subst hb0
  exact hg.paramReturnDeps_outOfFuel (hargc ▸ (hg.locals_plain argc (hnl ▸ hn)).lt) (hargc ▸ hle)
    (hconn fuel)

theorem isConnected_outOfFuel_of_flow_cycle_swap :
    (∀ instr ∈ swapThroughTemp, instr.localsBelow 4) ∧
    (Graph.new ⟨0, 0⟩ dummySp 2 4).translate swapThroughTemp = .ok swapGraph ∧
    ¬Relation.ReflTransGen (Flow swapThroughTemp) 1 0 ∧ ¬Relation.ReflTransGen (Flow swapThroughTemp) 0 1 ∧
    (∃ c < 4, (Relation.ReflTransGen (Flow swapThroughTemp) 1 c ∨
      Relation.ReflTransGen (Flow swapThroughTemp) c 1) ∧ Relation.TransGen (Flow swapThroughTemp) c c) ∧
    (∀ fuel, swapGraph.isConnected fuel 1 0 = .error .outOfFuel) ∧
      (0 = 0 → 1 ≤ 2 → 2 < 4 → ∀ fuel, swapGraph.paramReturnDeps fuel = .error .outOfFuel) := by
  -- the three copies neither read nor write the return slot
  have hflow : ∀ x y, Flow swapThroughTemp x y → x ≠ 0 ∧ y ≠ 0 := by
    rintro x y ⟨instr, hm, hp⟩
    simp only [swapThroughTemp, List.mem_cons, List.mem_singleton, List.not_mem_nil, or_false] at hm
    rcases hm with rfl | rfl | rfl <;>
      simp only [Instr.flows, ↓reduceIte, Rvalue.reads, Operand.reads, Place.reads, List.filterMap_nil,
        List.map_cons, List.map_nil, List.mem_singleton, Prod.mk.injEq] at hp <;>
      obtain ⟨rfl, rfl⟩ := hp <;> decide
  have h10 : ¬Relation.ReflTransGen (Flow swapThroughTemp) 1 0 := fun h => by
    rcases h.cases_tail with h | ⟨c, -, hc⟩
    exacts [absurd h (by decide), (hflow c 0 hc).2 rfl]
  have h01 : ¬Relation.ReflTransGen (Flow swapThroughTemp) 0 1 := fun h => by
    rcases h.cases_head with h | ⟨c, hc, -⟩
    exacts [absurd h (by decide), (hflow 0 c hc).1 rfl]
  have hcyc : ∃ c < 4, (Relation.ReflTransGen (Flow swapThroughTemp) 1 c ∨
      Relation.ReflTransGen (Flow swapThroughTemp) c 1) ∧ Relation.TransGen (Flow swapThroughTemp) c c :=
    ⟨1, by decide, .inl .refl, .head (show Flow swapThroughTemp 1 3 by decide)
      (.head (show Flow swapThroughTemp 3 2 by decide) (.single (show Flow swapThroughTemp 2 1 by decide)))⟩
  have hi : ∀ instr ∈ swapThroughTemp, instr.localsBelow 4 := by decide
  exact ⟨hi, rfl, h10, h01, hcyc,
    isConnected_outOfFuel_of_flow_cycle hi rfl (by decide) (by decide) h10 h01 hcyc⟩

-- Conversely, where no dataflow cycle lies downstream or upstream of `a`, `is_connected(a, b)`
-- returns for every `b` once the fuel exceeds the number of nodes, and where none touches a
-- parameter slot, `param_return_deps()` returns too: unlike in an acyclic body, cycles elsewhere
-- do not matter.
theorem isConnected_returns_of_no_flow_cycle (hi : ∀ instr ∈ instrs, instr.localsBelow n)
    (hG : (Graph.new defId span argc n).translate instrs = .ok G) {fuel : Nat}
    (hfuel : G.nodes.length < fuel) :
    (∀ a < n, (¬∃ c < n, (Relation.ReflTransGen (Flow instrs) a c ∨
      Relation.ReflTransGen (Flow instrs) c a) ∧ Relation.TransGen (Flow instrs) c c) →
        ∀ b, ∃ r, G.isConnected fuel a b = .ok r) ∧
      (argc < n → (∀ a ≤ argc, ¬∃ c < n, (Relation.ReflTransGen (Flow instrs) a c ∨
        Relation.ReflTransGen (Flow instrs) c a) ∧ Relation.TransGen (Flow instrs) c c) →
        ∃ deps, G.paramReturnDeps fuel = .ok deps) := by
  obtain ⟨hg, hargc, hnl⟩ := wellFormed_translate_new hi hG
  have hconn : ∀ a < n, (¬∃ c < n, (Relation.ReflTransGen (Flow instrs) a c ∨
      Relation.ReflTransGen (Flow instrs) c a) ∧ Relation.TransGen (Flow instrs) c c) →
        ∀ b, ∃ r, G.isConnected fuel a b = .ok r := by
    intro a ha hno b
    refine hg.isConnected_ok_of_no_cycle (hg.locals_plain a (hnl ▸ ha)) (fun ⟨c, hreach, hcc⟩ => ?_) hfuel
    -- the cycle passes through a local `d`, which data flows between `a` and round itself
    obtain ⟨d, hd, hcd, hdc, hdd⟩ := (translate_new_upOrSink hi hG).exists_local_cycle hcc
    exact hno ⟨d, hd, hreach.imp (fun h => (path_iff_flow hi hG ha hd).mp (h.trans hcd))
      (fun h => (path_iff_flow hi hG hd ha).mp (hdc.trans h)),
      (transGen_edgeStep_iff_flow hi hG hd hd).mp hdd⟩
  refine ⟨hconn, fun hn hno => mapM_ok fun i hi' => hconn i ?_ (hno i ?_) 0⟩ <;>
    simp only [List.mem_range, hargc] at hi' <;> omega

-- `_0 = copy _1; _2 = copy _3; _3 = copy _2`: a copy out of the parameter beside a copy loop.
def copyBesideLoop : List Instr :=
  [.statement ⟨.assign ⟨0, []⟩ (.use (.copy ⟨1, []⟩)), dummySp⟩,
   .statement ⟨.assign ⟨2, []⟩ (.use (.copy ⟨3, []⟩)), dummySp⟩,
   .statement ⟨.assign ⟨3, []⟩ (.use (.copy ⟨2, []⟩)), dummySp⟩]

def copyBesideLoopGraph : Graph where
  defId := ⟨0, 0⟩
  span := dummySp
  argc := 1
  nodes := [⟨.use, dummySp, 1, [], [0]⟩, ⟨.nop, dummySp, 0, [0], []⟩, ⟨.use, dummySp, 1, [2], [1]⟩,
    ⟨.use, dummySp, 1, [1], [2]⟩]
  edges := [⟨1, 0, .copy, 0⟩, ⟨3, 2, .copy, 0⟩, ⟨2, 3, .copy, 0⟩]
  nLocals := 4

-- The loop between slots 2 and 3 is a dataflow cycle, but none lies downstream or upstream of
-- the slots 0 and 1, so their queries and `param_return_deps()` return.
theorem isConnected_returns_of_no_flow_cycle_copyBesideLoop :
    (∀ instr ∈ copyBesideLoop, instr.localsBelow 4) ∧
    (Graph.new ⟨0, 0⟩ dummySp 1 4).translate copyBesideLoop = .ok copyBesideLoopGraph ∧
    copyBesideLoopGraph.nodes.length < 5 ∧ Relation.TransGen (Flow copyBesideLoop) 2 2 ∧
    (∀ a ≤ 1, ¬∃ c < 4, (Relation.ReflTransGen (Flow copyBesideLoop) a c ∨
      Relation.ReflTransGen (Flow copyBesideLoop) c a) ∧ Relation.TransGen (Flow copyBesideLoop) c c) ∧
    (∀ a ≤ 1, ∀ b, ∃ r, copyBesideLoopGraph.isConnected 5 a b = .ok r) ∧
    ∃ deps, copyBesideLoopGraph.paramReturnDeps 5 = .ok deps := by
  have hflow : ∀ x y : Nat, Flow copyBesideLoop x y → x = 1 ∧ y = 0 ∨ 2 ≤ x ∧ 2 ≤ y := by
    rintro x y ⟨instr, hm, hp⟩
    simp only [copyBesideLoop, List.mem_cons, List.mem_singleton, List.not_mem_nil, or_false] at hm
    rcases hm with rfl | rfl | rfl <;>
      simp only [Instr.flows, ↓reduceIte, Rvalue.reads, Operand.reads, Place.reads, List.filterMap_nil,
        List.map_cons, List.map_nil, List.mem_singleton, Prod.mk.injEq] at hp <;>
      obtain ⟨rfl, rfl⟩ := hp <;> decide
  -- data enters and leaves the slots 0 and 1 only by the copy from 1 to 0
  have hout : ∀ x y : Nat, x ≤ 1 → Flow copyBesideLoop x y → y ≤ 1 := fun x y _ h => by
    have := hflow x y h; omega
  have hin : ∀ x y : Nat, x ≤ 1 → Function.swap (Flow copyBesideLoop) x y → y ≤ 1 := fun x y _ h => by
    have := hflow y x h; omega
  have hacyclic : ∀ c : Nat, c ≤ 1 → ¬Relation.TransGen (Flow copyBesideLoop) c c := by
    intro c hc hcc
    obtain ⟨d, hcd, hdc⟩ : ∃ d : Nat, Flow copyBesideLoop c d ∧
      Relation.ReflTransGen (Flow copyBesideLoop) d c := Relation.TransGen.head'_iff.mp hcc
    obtain ⟨rfl, rfl⟩ : c = 1 ∧ d = 0 := by have := hflow _ _ hcd; omega
    rcases hdc.cases_head with h | ⟨e, he, -⟩
    · exact absurd h (by decide)
    · have := hflow _ _ he; omega
  have hno : ∀ a ≤ 1, ¬∃ c < 4, (Relation.ReflTransGen (Flow copyBesideLoop) a c ∨
      Relation.ReflTransGen (Flow copyBesideLoop) c a) ∧ Relation.TransGen (Flow copyBesideLoop) c c :=
    fun a ha ⟨c, _, hreach, hcc⟩ => hacyclic c (hreach.elim (fun h => (reflTransGen_within hout ha h).2)
      fun h => (reflTransGen_within hin ha (Relation.reflTransGen_swap.mpr h)).2) hcc
  have hret := isConnected_returns_of_no_flow_cycle (by decide)
    (show (Graph.new ⟨0, 0⟩ dummySp 1 4).translate copyBesideLoop = .ok copyBesideLoopGraph from rfl)
    (show copyBesideLoopGraph.nodes.length < 5 by decide)
  exact ⟨by decide, rfl, by decide, .head (show Flow copyBesideLoop 2 3 by decide)
      (.single (show Flow copyBesideLoop 3 2 by decide)), hno,
    fun a ha => hret.1 a (Nat.lt_of_le_of_lt ha (by decide)) (hno a ha), hret.2 (by decide) hno⟩

end Divergence

end RapxDataflow.Graph
