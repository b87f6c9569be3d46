import Mathlib.Data.Finset.Card
import RapxDataflow.Query.Equivalent
import RapxDataflow.Graph.Progress

namespace RapxDataflow.Graph

-- `_1 = copy (_0 as variant)` with a downcast whose variant has no name, as MIR allows.
def downcastUnnamed : List Instr :=
  [.statement ⟨.assign ⟨1, []⟩ (.use (.copy ⟨0, [.downcast none]⟩)), dummySp⟩]

-- `parse_one_step` calls `symbol.unwrap()` on the downcast's name and panics.
theorem translate_downcastUnnamed_panics :
    (∀ instr ∈ downcastUnnamed, instr.localsBelow 2) ∧
    (Graph.new ⟨0, 0⟩ dummySp 0 2).translate downcastUnnamed = .error .unwrapNone :=
  ⟨by decide, rfl⟩

section Builder

variable {instrs : List Instr} {defId : DefId} {span : Span} {argc n : Nat}

end Builder

section Queries

variable {α ε : Type} {β : Type} {f : α → Except ε β}

theorem mapM_eq_error {l : List α} {e : ε} (h : l.mapM f = .error e) : ∃ a ∈ l, f a = .error e := by
  induction l with
  | nil => cases h
  | cons a rest ih =>
    simp only [List.mapM_cons] at h
    rcases hf : f a with e' | b
    · rw [hf, error_bind] at h
      cases h
      exact ⟨a, List.mem_cons_self _ _, hf⟩
    · rw [hf, ok_bind] at h
      rcases hr : rest.mapM f with e'' | bs
      · rw [hr, error_bind] at h
        cases h
        obtain ⟨x, hx, hfx⟩ := ih hr
        exact ⟨x, List.mem_cons_of_mem _ hx, hfx⟩
      · rw [hr, ok_bind] at h
        cases h

variable {g : Graph} {fuel : Nat}

theorem WellFormed.isConnected_error (hg : g.WellFormed) {a b : Local} (ha : a < g.nodes.length)
    {e : Fault} (h : g.isConnected fuel a b = .error e) : e = .outOfFuel := by
  have hsafe : ∀ dir (s : Bool) {e}, g.dfs dir (connectedOperator b) alwaysTrueEdgeValidator false
      fuel a s = .error e → e = .outOfFuel := fun _ _ _ =>
    dfs_error_outOfFuel (fun _ _ _ => ⟨_, rfl⟩) (fun _ _ _ => ⟨_, rfl⟩) hg.adjacent_lt ha
  simp only [isConnected] at h
  rcases h₁ : g.dfs .downside (connectedOperator b) alwaysTrueEdgeValidator false fuel a false with
    e₁ | ⟨st, find⟩
  · rw [h₁, error_bind] at h
    cases h
    exact hsafe _ _ h₁
  · rw [h₁, ok_bind] at h
    cases find
    · simp only [Bool.not_false, ↓reduceIte] at h
      rcases h₂ : g.dfs .upside (connectedOperator b) alwaysTrueEdgeValidator false fuel a false with
        e₂ | r
      · rw [h₂, error_bind] at h
        cases h
        exact hsafe _ _ h₂
      · rw [h₂, ok_bind] at h
        cases h
    · cases h

theorem WellFormed.collectEquivalentLocals_error (hg : g.WellFormed) {v : Local}
    (hv : v < g.nodes.length) {e : Fault} (h : g.collectEquivalentLocals fuel v = .error e) :
    e = .outOfFuel := by
  simp only [collectEquivalentLocals] at h
  rcases h₁ : g.dfs .upside findRootOperator equivalentEdgeValidator true fuel v v with e₁ | r
  · rw [h₁, error_bind] at h
    cases h
    exact dfs_error_outOfFuel (fun _ s hv => findRootOperator_ok s hv) equivalentEdgeValidator_ok
      hg.adjacent_lt hv h₁
  · rw [h₁, ok_bind] at h
    rcases h₂ : g.dfs .downside findEquivalentOperator equivalentEdgeValidator true fuel r.2 ∅ with
      e₂ | r'
    · rw [h₂, error_bind] at h
      cases h
      exact dfs_error_outOfFuel (fun _ s hv => findEquivalentOperator_ok s hv)
        equivalentEdgeValidator_ok hg.adjacent_lt (findRoot_lt hv h₁) h₂
    · rw [h₂, ok_bind] at h
      cases h

-- `param_return_deps()` fails as soon as the query of one of its slots runs out of fuel.
theorem WellFormed.paramReturnDeps_outOfFuel (hg : g.WellFormed) (hargc : g.argc < g.nodes.length)
    {a : Local} (ha : a ≤ g.argc) (h : g.isConnected fuel a 0 = .error .outOfFuel) :
    g.paramReturnDeps fuel = .error .outOfFuel := by
  rcases hd : g.paramReturnDeps fuel with e | deps
  · obtain ⟨i, hi, he⟩ := mapM_eq_error hd
    simp only [List.mem_range] at hi
    rw [hg.isConnected_error (Nat.lt_of_lt_of_le hi hargc) he]
  · obtain ⟨hlen, hdeps⟩ := paramReturnDeps_spec hd
    cases h.symm.trans (hdeps a (hlen ▸ Nat.lt_succ_of_le ha))

end Queries

section Fuel

variable {α β ε : Type} {f : α → Except ε β}

theorem mapM_of_forall₂ {l : List α} {r : List β} (h : List.Forall₂ (fun a b => f a = .ok b) l r) :
    l.mapM f = .ok r := by
  induction h with
  | nil => rfl
  | cons hb _ ih => simp only [List.mapM_cons, hb, ih, ok_bind]; rfl

variable {g : Graph} {fuel fuel' : Nat}

-- Adequacy of the fuel. The model bounds the recursion of `dfs` by a fuel where the code
-- recurses without bound: a query that answers with some fuel gives the same answer with any
-- more, so the answer is the code's.
theorem queries_fuel_mono (hle : fuel ≤ fuel') :
    (∀ a b r, g.isConnected fuel a b = .ok r → g.isConnected fuel' a b = .ok r) ∧
      (∀ v S, g.collectEquivalentLocals fuel v = .ok S → g.collectEquivalentLocals fuel' v = .ok S) ∧
      (∀ deps, g.paramReturnDeps fuel = .ok deps → g.paramReturnDeps fuel' = .ok deps) := by
  have hconn : ∀ a b r, g.isConnected fuel a b = .ok r → g.isConnected fuel' a b = .ok r := by
    intro a b r h
    simp only [isConnected, bind_eq_ok] at h ⊢
    obtain ⟨⟨_, find⟩, h₁, h⟩ := h
    refine ⟨_, dfs_fuel_mono hle h₁, ?_⟩
    split_ifs at h ⊢
    · simp only [bind_eq_ok] at h ⊢
      obtain ⟨r₂, h₂, h⟩ := h
      exact ⟨r₂, dfs_fuel_mono hle h₂, h⟩
    · exact h
  refine ⟨hconn, fun v S h => ?_,
    fun deps h => mapM_of_forall₂ ((mapM_eq_ok h).imp fun i b => hconn i 0 b)⟩
  simp only [collectEquivalentLocals, bind_eq_ok] at h ⊢
  obtain ⟨r₁, h₁, r₂, h₂, h⟩ := h
  exact ⟨r₁, dfs_fuel_mono hle h₁, r₂, dfs_fuel_mono hle h₂, h⟩

end Fuel

section Builder

variable {instrs : List Instr} {defId : DefId} {span : Span} {argc n : Nat} {g : Graph}

-- On every built graph the queries index only in range: started from slots below
-- `n_locals`, they fail only by recursing deeper than the fuel allows.
theorem queries_fail_only_outOfFuel (hi : ∀ instr ∈ instrs, instr.localsBelow n)
    (hg : (Graph.new defId span argc n).translate instrs = .ok g) :
    (∀ fuel a b e, a < n → g.isConnected fuel a b = .error e → e = .outOfFuel) ∧
    (∀ fuel v e, v < n → g.collectEquivalentLocals fuel v = .error e → e = .outOfFuel) ∧
    (argc < n → ∀ fuel e, g.paramReturnDeps fuel = .error e → e = .outOfFuel) := by
  obtain ⟨hwf, hargc, hn⟩ := wellFormed_translate_new hi hg
  have hlt : ∀ v < n, v < g.nodes.length := fun v hv => (hwf.locals_plain v (hn ▸ hv)).lt
  have hconn : ∀ fuel a b e, a < n → g.isConnected fuel a b = .error e → e = .outOfFuel :=
    fun _ a _ _ ha h => hwf.isConnected_error (hlt a ha) h
  refine ⟨hconn, fun _ v _ hv h => hwf.collectEquivalentLocals_error (hlt v hv) h,
    fun hargc' fuel e h => ?_⟩
  obtain ⟨i, hi, h⟩ := mapM_eq_error h
  exact hconn fuel i 0 e (by simp only [List.mem_range, hargc] at hi; omega) h

theorem queries_fail_only_outOfFuel_addParams :
    (∀ instr ∈ addParams, instr.localsBelow 3) ∧
    (Graph.new ⟨0, 0⟩ dummySp 2 3).translate addParams = .ok addGraph ∧
    (∀ fuel a b e, a < 3 → addGraph.isConnected fuel a b = .error e → e = .outOfFuel) ∧
    (∀ fuel v e, v < 3 → addGraph.collectEquivalentLocals fuel v = .error e → e = .outOfFuel) ∧
    (2 < 3 → ∀ fuel e, addGraph.paramReturnDeps fuel = .error e → e = .outOfFuel) :=
  ⟨by decide, rfl, queries_fail_only_outOfFuel (by decide)
    (show (Graph.new ⟨0, 0⟩ dummySp 2 3).translate addParams = .ok addGraph from rfl)⟩

end Builder

section Divergence

variable {σ : Type} {g : Graph} {op : Graph → Local → σ → Except Fault (DFSStatus × σ)}
  {val : Graph → EdgeIdx → Except Fault DFSStatus} {V : EdgeIdx → Prop} {ta : Bool}
  {field : GraphEdge → Local} {visit : Local → σ → Except Fault (DFSStatus × σ)}

-- What a visit may return to a loop that is to run on: out of fuel, or a status the loop moves
-- past (`Continue`, or any status under `traverse_all`).
def Passes (ta : Bool) (r : Except Fault (DFSStatus × σ)) : Prop :=
  r = .error .outOfFuel ∨ ∃ st s', r = .ok (st, s') ∧ (st = .continue ∨ ta = true)

theorem Passes.of_unstopped {r : Except Fault (DFSStatus × σ)}
    (h : r = .error .outOfFuel ∨ ∃ s', r = .ok (.continue, s')) : Passes ta r :=
  h.imp_right fun ⟨s', h⟩ => ⟨_, s', h, .inl rfl⟩

-- Under `traverse_all` every outcome passes but a fault other than running out of fuel.
theorem passes_true {r : Except Fault (DFSStatus × σ)} (h : ∀ f, r = .error f → f = .outOfFuel) :
    Passes true r := by
  rcases r with f | ⟨st, s'⟩
  · exact .inl (by rw [h f rfl])
  · exact .inr ⟨st, s', rfl, .inr rfl⟩

section Steps

variable {e : EdgeIdx} {edge : GraphEdge} {rest : List EdgeIdx} {s : σ}
  (hedge : g.edges[e]? = some edge)
include hedge

-- One turn of the loop: a refused edge is skipped, and an admitted one is visited, the loop
-- ending on a fault of the visit and moving on past a status that does not stop it.
theorem traverse_cons_refused (hst : val g e = .ok .stop) :
    g.traverse val ta field visit (e :: rest) s = g.traverse val ta field visit rest s := by
  simp only [traverse, edge_of_getElem? hedge, hst, ok_bind]

theorem traverse_cons_error (hst : val g e = .ok .continue) {f : Fault}
    (hv : visit (field edge) s = .error f) : g.traverse val ta field visit (e :: rest) s = .error f := by
  simp only [traverse, edge_of_getElem? hedge, hst, hv, ok_bind, error_bind]

theorem traverse_cons_pass (hst : val g e = .ok .continue) {st : DFSStatus} {s₁ : σ}
    (hv : visit (field edge) s = .ok (st, s₁)) (hgo : st = .continue ∨ ta = true) :
    g.traverse val ta field visit (e :: rest) s = g.traverse val ta field visit rest s₁ := by
  simp only [traverse, edge_of_getElem? hedge, hst, hv, ok_bind]
  rw [if_neg (by rcases hgo with rfl | rfl <;> simp)]

end Steps

-- A step of a search in a well-formed graph ends at an existing node.
theorem WellFormed.adjStep_lt (hg : g.WellFormed) {dir : Direction} {x y : Local}
    (h : g.AdjStep V dir x y) : y < g.nodes.length := by
  obtain ⟨n, e, edge, hn, hedge, -, hdir⟩ := h
  -- the step follows an edge of `x`'s adjacency lists to one of its ends
  obtain ⟨he, hy⟩ : e ∈ n.inEdges ++ n.outEdges ∧ (edge.src = y ∨ edge.dst = y) := by
    cases dir with
    | upside => exact ⟨List.mem_append_left _ hdir.1, .inl hdir.2⟩
    | downside => exact ⟨List.mem_append_right _ hdir.1, .inr hdir.2⟩
    | both =>
      rcases hdir with h | h
      exacts [⟨List.mem_append_left _ h.1, .inl h.2⟩, ⟨List.mem_append_right _ h.1, .inr h.2⟩]
  obtain ⟨edge', hedge', hs, hd⟩ := hg.adjacent_lt x n hn e he
  obtain rfl : edge = edge' := Option.some_injective _ (hedge.symm.trans hedge')
  rcases hy with rfl | rfl
  exacts [hs, hd]

theorem adjStep_both {x y : Local} :
    g.AdjStep V .both x y ↔ g.AdjStep V .upside x y ∨ g.AdjStep V .downside x y := by
  constructor
  · rintro ⟨n, e, edge, hn, hedge, hv, h | h⟩
    exacts [.inl ⟨n, e, edge, hn, hedge, hv, h⟩, .inr ⟨n, e, edge, hn, hedge, hv, h⟩]
  · rintro (⟨n, e, edge, hn, hedge, hv, h⟩ | ⟨n, e, edge, hn, hedge, hv, h⟩)
    exacts [⟨n, e, edge, hn, hedge, hv, .inl h⟩, ⟨n, e, edge, hn, hedge, hv, .inr h⟩]

-- The loops a search in direction `dir` runs at `x` visit, along edges that exist, far ends that
-- are steps of the search when the validator admits the edge.
theorem WellFormed.loop_visits (hg : g.WellFormed) {dir : Direction} {x : Local}
    (hx : x < g.nodes.length) {Q : Local → Prop} (hQ : ∀ y, g.AdjStep V dir x y → Q y) :
    (dir ≠ .downside → ∀ e ∈ g.nodes[x].inEdges, ∃ edge, g.edges[e]? = some edge ∧ (V e → Q edge.src)) ∧
      (dir ≠ .upside → ∀ e ∈ g.nodes[x].outEdges, ∃ edge, g.edges[e]? = some edge ∧
        (V e → Q edge.dst)) := by
  have hn : g.nodes[x]? = some g.nodes[x] := List.getElem?_eq_getElem hx
  have hadj := hg.adjacent_lt x _ hn
  constructor
  · intro hdir e he
    obtain ⟨edge, hedge, -⟩ := hadj e (List.mem_append_left _ he)
    refine ⟨edge, hedge, fun hv => hQ _ ⟨_, e, edge, hn, hedge, hv, ?_⟩⟩
    cases dir
    exacts [⟨he, rfl⟩, absurd rfl hdir, .inl ⟨he, rfl⟩]
  · intro hdir e he
    obtain ⟨edge, hedge, -⟩ := hadj e (List.mem_append_right _ he)
    refine ⟨edge, hedge, fun hv => hQ _ ⟨_, e, edge, hn, hedge, hv, ?_⟩⟩
    cases dir
    exacts [absurd rfl hdir, ⟨he, rfl⟩, .inr ⟨he, rfl⟩]

section Loop

variable (hval_ok : ∀ e edge, g.edges[e]? = some edge → ∃ st, val g e = .ok st)
  (hval : ∀ e st, val g e = .ok st → (st = .continue ↔ V e))
include hval_ok hval

-- A loop whose admitted visits all pass never reports a stop ...
theorem traverse_unstopped {L : List EdgeIdx}
    (hL : ∀ e ∈ L, ∃ edge, g.edges[e]? = some edge ∧ (V e → ∀ s, Passes ta (visit (field edge) s)))
    (s : σ) : g.traverse val ta field visit L s = .error .outOfFuel ∨
      ∃ s', g.traverse val ta field visit L s = .ok (false, s') := by
  induction L generalizing s with
  | nil => exact .inr ⟨s, rfl⟩
  | cons e rest ih =>
    have ih := ih fun e he => hL e (List.mem_cons_of_mem _ he)
    obtain ⟨edge, hedge, hvisit⟩ := hL e (List.mem_cons_self _ _)
    obtain ⟨st, hst⟩ := hval_ok e edge hedge
    cases st with
    | stop => rw [traverse_cons_refused hedge hst]; exact ih s
    | «continue» =>
      rcases hvisit ((hval e _ hst).mp rfl) s with hv | ⟨st', s₁, hv, hgo⟩
      · exact .inl (traverse_cons_error hedge hst hv)
      · rw [traverse_cons_pass hedge hst hv hgo]; exact ih s₁

-- ... and one with an admitted visit that runs out of fuel runs out of fuel.
theorem traverse_outOfFuel {L : List EdgeIdx}
    (hL : ∀ e ∈ L, ∃ edge, g.edges[e]? = some edge ∧ (V e → ∀ s, Passes ta (visit (field edge) s)))
    {e : EdgeIdx} {edge : GraphEdge} (he : e ∈ L) (hedge : g.edges[e]? = some edge) (hV : V e)
    (hdiv : ∀ s, visit (field edge) s = .error .outOfFuel) (s : σ) :
    g.traverse val ta field visit L s = .error .outOfFuel := by
  induction L generalizing s with
  | nil => cases he
  | cons e' rest ih =>
    obtain ⟨edge', hedge', hvisit⟩ := hL e' (List.mem_cons_self _ _)
    obtain ⟨st, hst⟩ := hval_ok e' edge' hedge'
    rcases List.mem_cons.mp he with rfl | he
    · obtain rfl : edge = edge' := Option.some_injective _ (hedge.symm.trans hedge')
      exact traverse_cons_error hedge ((hval _ _ hst).mpr hV ▸ hst) (hdiv s)
    · have ih := ih (fun e he => hL e (List.mem_cons_of_mem _ he)) he
      cases st with
      | stop => rw [traverse_cons_refused hedge' hst]; exact ih s
      | «continue» =>
        rcases hvisit ((hval _ _ hst).mp rfl) s with hv | ⟨st', s₁, hv, hgo⟩
        · exact traverse_cons_error hedge' hst hv
        · rw [traverse_cons_pass hedge' hst hv hgo]; exact ih s₁

section Direction

variable {visit : Local → σ → Except Fault (DFSStatus × σ)} {dir : Direction} {n : GraphNode}
  (hin : dir ≠ .downside → ∀ e ∈ n.inEdges, ∃ edge, g.edges[e]? = some edge ∧
    (V e → ∀ s, Passes ta (visit edge.src s)))
  (hout : dir ≠ .upside → ∀ e ∈ n.outEdges, ∃ edge, g.edges[e]? = some edge ∧
    (V e → ∀ s, Passes ta (visit edge.dst s)))
include hin hout

-- The loops of one node, in any direction, never report a stop when their visits pass ...
theorem traverseDirection_unstopped (s : σ) :
    g.traverseDirection val ta visit n dir s = .error .outOfFuel ∨
      ∃ s', g.traverseDirection val ta visit n dir s = .ok (false, s') := by
  cases dir with
  | upside => exact traverse_unstopped hval_ok hval (hin (by decide)) s
  | downside => exact traverse_unstopped hval_ok hval (hout (by decide)) s
  | both =>
    simp only [traverseDirection]
    rcases traverse_unstopped hval_ok hval (hin (by decide)) s with h | ⟨s₁, h⟩
    · exact .inl (by simp only [h, error_bind])
    · simp only [h, ok_bind, Bool.false_eq_true, if_false]
      exact traverse_unstopped hval_ok hval (hout (by decide)) s₁

-- ... and run out of fuel when a step of the search leads to a visit that does.
theorem traverseDirection_outOfFuel {x y : Local} (hn : g.nodes[x]? = some n)
    (hxy : g.AdjStep V dir x y) (hdiv : ∀ s, visit y s = .error .outOfFuel) (s : σ) :
    g.traverseDirection val ta visit n dir s = .error .outOfFuel := by
  obtain ⟨n', e, edge, hn', hedge, hV, hdir⟩ := hxy
  obtain rfl : n = n' := Option.some_injective _ (hn.symm.trans hn')
  cases dir with
  | upside =>
    obtain ⟨he, rfl⟩ := hdir
    exact traverse_outOfFuel hval_ok hval (hin (by decide)) he hedge hV hdiv s
  | downside =>
    obtain ⟨he, rfl⟩ := hdir
    exact traverse_outOfFuel hval_ok hval (hout (by decide)) he hedge hV hdiv s
  | both =>
    simp only [traverseDirection]
    rcases hdir with ⟨he, rfl⟩ | ⟨he, rfl⟩
    · simp only [traverse_outOfFuel hval_ok hval (hin (by decide)) he hedge hV hdiv, error_bind]
    · rcases traverse_unstopped hval_ok hval (hin (by decide)) s with h | ⟨s₁, h⟩
      · simp only [h, error_bind]
      · simp only [h, ok_bind, Bool.false_eq_true, if_false,
          traverse_outOfFuel hval_ok hval (hout (by decide)) he hedge hV hdiv]

end Direction

section Region

variable {dir : Direction} {R : Local → Prop} (hop : ∀ v s, R v → ∃ s', op g v s = .ok (.continue, s'))
include hop

-- A search that nothing stops inside a region its steps do not leave never reports a stop.
theorem WellFormed.dfs_unstopped (hg : g.WellFormed) (hR : ∀ x y, R x → g.AdjStep V dir x y → R y)
    (fuel : Nat) : ∀ {x : Local} (s : σ), R x → x < g.nodes.length →
      g.dfs dir op val ta fuel x s = .error .outOfFuel ∨
        ∃ s', g.dfs dir op val ta fuel x s = .ok (.continue, s') := by
  induction fuel with
  | zero => exact fun _ _ _ => .inl rfl
  | succ fuel ih =>
    intro x s hRx hx
    obtain ⟨s₁, hs₁⟩ := hop x s hRx
    obtain ⟨hin, hout⟩ := hg.loop_visits (Q := fun y => ∀ s, Passes ta (g.dfs dir op val ta fuel y s)) hx
      fun y hy s => Passes.of_unstopped (ih s (hR x y hRx hy) (hg.adjStep_lt hy))
    simp only [dfs, hs₁, node_of_getElem? (List.getElem?_eq_getElem hx), ok_bind]
    rcases traverseDirection_unstopped hval_ok hval hin hout s₁ with h | ⟨s₂, h⟩
    · exact .inl (by simp only [h, error_bind])
    · exact .inr ⟨s₂, by simp only [h, ok_bind]; rfl⟩

-- A search that can walk from `x`, through nodes of the region, into a cycle of the region
-- never returns, whatever the fuel, when each visit it makes from the region passes.
theorem WellFormed.dfs_outOfFuel_of_cycle (hg : g.WellFormed)
    (hpass : ∀ fuel x y s, R x → g.AdjStep V dir x y → Passes ta (g.dfs dir op val ta fuel y s))
    (fuel : Nat) : ∀ {x : Local} (s : σ),
      (∃ c, Relation.ReflTransGen (fun x y => R x ∧ g.AdjStep V dir x y) x c ∧
        Relation.TransGen (fun x y => R x ∧ g.AdjStep V dir x y) c c) →
      g.dfs dir op val ta fuel x s = .error .outOfFuel := by
  induction fuel with
  | zero => exact fun _ _ => rfl
  | succ fuel ih =>
    rintro x s ⟨c, hxc, hcc⟩
    -- the first step of the walk, into a node from which the cycle is still reachable
    obtain ⟨y, ⟨hRx, hxy⟩, hyc⟩ : ∃ y, (R x ∧ g.AdjStep V dir x y) ∧
        Relation.ReflTransGen (fun x y => R x ∧ g.AdjStep V dir x y) y c := by
      rcases hxc.cases_head with rfl | h
      exacts [Relation.TransGen.head'_iff.mp hcc, h]
    have hx : x < g.nodes.length :=
      let ⟨_, _, _, hn, _⟩ := hxy
      (List.getElem?_eq_some_iff.mp hn).1
    obtain ⟨s₁, hs₁⟩ := hop x s hRx
    obtain ⟨hin, hout⟩ := hg.loop_visits (Q := fun z => ∀ s, Passes ta (g.dfs dir op val ta fuel z s)) hx
      fun z hz s => hpass fuel x z s hRx hz
    simp only [dfs, hs₁, node_of_getElem? (List.getElem?_eq_getElem hx), ok_bind, error_bind,
      traverseDirection_outOfFuel hval_ok hval hin hout (List.getElem?_eq_getElem hx) hxy
        fun s => ih s ⟨c, hyc, hcc⟩]

-- In a region its steps do not leave, a search that can walk from `x` into a cycle runs out of
-- fuel.
theorem WellFormed.dfs_outOfFuel_of_closed (hg : g.WellFormed)
    (hR : ∀ x y, R x → g.AdjStep V dir x y → R y) (fuel : Nat) {x : Local} (s : σ) (hx : R x)
    (hcyc : ∃ c, Relation.ReflTransGen (g.AdjStep V dir) x c ∧ Relation.TransGen (g.AdjStep V dir) c c) :
    g.dfs dir op val ta fuel x s = .error .outOfFuel := by
  obtain ⟨c, hxc, hcc⟩ := hcyc
  obtain ⟨hxc', hc⟩ := reflTransGen_within hR hx hxc
  exact hg.dfs_outOfFuel_of_cycle hval_ok hval hop (fun fuel x y s hx hy => Passes.of_unstopped
    (hg.dfs_unstopped hval_ok hval hop hR fuel s (hR x y hx hy) (hg.adjStep_lt hy))) fuel s
    ⟨c, hxc', transGen_within hR hc hcc⟩

end Region

end Loop

-- `Direction::Both` follows every edge back the way it came: where nothing stops the search, it
-- never returns from either end of an edge between two nodes, whatever the fuel.
theorem WellFormed.dfs_both_outOfFuel (hg : g.WellFormed)
    (hop : ∀ v s, v < g.nodes.length → ∃ s', op g v s = .ok (.continue, s'))
    (hval : ∀ e, val g e = .ok .continue) (fuel : Nat) :
    ∀ {x : Local} (s : σ), (∃ edge ∈ g.edges, g.Plain edge.src ∧ (edge.src = x ∨ edge.dst = x)) →
      g.dfs .both op val ta fuel x s = .error .outOfFuel := by
  rintro x s ⟨edge, hmem, hplain, hend⟩
  -- the edge and its reverse make a cycle of two steps
  have hfwd : g.AdjStep (fun _ => True) .both edge.src edge.dst :=
    adjStep_both.mpr (.inr (hg.adjStep_downside.mpr ⟨⟨edge, hmem, rfl, rfl⟩, hplain⟩))
  have hbwd : g.AdjStep (fun _ => True) .both edge.dst edge.src :=
    adjStep_both.mpr (.inl (hg.adjStep_upside.mpr ⟨edge, hmem, rfl, rfl⟩))
  have hx : x < g.nodes.length := by
    rcases hend with rfl | rfl
    exacts [hg.src_lt _ hmem, hg.dst_lt hmem]
  refine hg.dfs_outOfFuel_of_closed (R := (· < g.nodes.length)) (fun e _ _ => ⟨_, hval e⟩)
    (fun e _ h => iff_true_intro (Except.ok.inj ((hval e).symm.trans h)).symm) hop
    (fun _ _ _ h => hg.adjStep_lt h) fuel s hx ⟨x, .refl, ?_⟩
  rcases hend with rfl | rfl
  exacts [.head hfwd (.single hbwd), .head hbwd (.single hfwd)]

theorem dfs_both_outOfFuel_addGraph :
    addGraph.WellFormed ∧
    (∀ (v : Local) (s : Unit), v < addGraph.nodes.length →
      ∃ s', (fun _ _ s => pure (.continue, s) : Graph → Local → Unit → Except Fault (DFSStatus × Unit))
        addGraph v s = .ok (.continue, s')) ∧
    (∀ e, alwaysTrueEdgeValidator addGraph e = .ok .continue) ∧
    (∃ edge ∈ addGraph.edges, addGraph.Plain edge.src ∧ (edge.src = 1 ∨ edge.dst = 1)) ∧
    addGraph.dfs .both (fun _ _ s => pure (.continue, s)) alwaysTrueEdgeValidator false 5 1 () =
      .error .outOfFuel := by
  have hg : addGraph.WellFormed := (wellFormed_translate_new (by decide : ∀ instr ∈ addParams,
    instr.localsBelow 3) (show (Graph.new ⟨0, 0⟩ dummySp 2 3).translate addParams = .ok addGraph
      from rfl)).1
  have hx : ∃ edge ∈ addGraph.edges, addGraph.Plain edge.src ∧ (edge.src = 1 ∨ edge.dst = 1) :=
    ⟨_, List.mem_cons_self _ _, ⟨_, rfl, rfl⟩, .inl rfl⟩
  exact ⟨hg, fun _ s _ => ⟨s, rfl⟩, fun _ => rfl, hx,
    hg.dfs_both_outOfFuel (fun _ s _ => ⟨s, rfl⟩) (fun _ => rfl) 5 () hx⟩

end Divergence

section Acyclic

variable {σ : Type} {g : Graph} {op : Graph → Local → σ → Except Fault (DFSStatus × σ)}
  {val : Graph → EdgeIdx → Except Fault DFSStatus} {V : EdgeIdx → Prop} {ta : Bool} {dir : Direction}

open Classical in
-- Counting the nodes a relation climbs to from a node: one step down a relation that does not
-- come back to the step's end drops the count.
theorem card_above_lt {r : Local → Local → Prop} {L : Nat} (hL : ∀ x y, r x y → y < L) {x y : Local}
    (hxy : r x y) (hy : ¬Relation.TransGen r y y) :
    ((Finset.range L).filter fun z => Relation.TransGen r y z).card <
      ((Finset.range L).filter fun z => Relation.TransGen r x z).card := by
  refine Finset.card_lt_card ((Finset.ssubset_iff_of_subset fun z hz => ?_).mpr
    ⟨y, Finset.mem_filter.mpr ⟨Finset.mem_range.mpr (hL x y hxy), .single hxy⟩,
      fun h => hy (Finset.mem_filter.mp h).2⟩)
  obtain ⟨hz, hyz⟩ := Finset.mem_filter.mp hz
  exact Finset.mem_filter.mpr ⟨hz, .head hxy hyz⟩

-- A search that cannot walk from `x`, through nodes where it continues (`P`), into a cycle of
-- such nodes ends once the fuel exceeds the number of nodes: each step it takes climbs to a node
-- with fewer nodes above it.
theorem WellFormed.dfs_ok_of_no_cycle (hg : g.WellFormed) {P : Local → Prop}
    (hop : ∀ v s, v < g.nodes.length → ∃ r, op g v s = .ok r)
    (hP : ∀ v s s', op g v s = .ok (.continue, s') → P v)
    (hval_ok : ∀ e edge, g.edges[e]? = some edge → ∃ st, val g e = .ok st)
    (hval : ∀ e st, val g e = .ok st → (st = .continue ↔ V e)) {x : Local} (hx : x < g.nodes.length)
    (hno : ¬∃ c, Relation.ReflTransGen (fun u v => P u ∧ g.AdjStep V dir u v) x c ∧
      Relation.TransGen (fun u v => P u ∧ g.AdjStep V dir u v) c c)
    {fuel : Nat} (hfuel : g.nodes.length < fuel) (s : σ) :
    ∃ r, g.dfs dir op val ta fuel x s = .ok r := by
  classical
  refine dfs_ok_of_measure_where (Relation.ReflTransGen (fun u v => P u ∧ g.AdjStep V dir u v) x) P
    (fun y => ((Finset.range g.nodes.length).filter
      fun z => Relation.TransGen (fun u v => P u ∧ g.AdjStep V dir u v) y z).card)
    hop hP hval_ok hval hg.adjacent_lt (fun _ _ hy hPy hyz => hy.tail ⟨hPy, hyz⟩)
    (fun _ z hy hPy hyz => card_above_lt (fun _ _ h => hg.adjStep_lt h.2) ⟨hPy, hyz⟩
      fun hzz => hno ⟨z, hy.tail ⟨hPy, hyz⟩, hzz⟩) s .refl hx ?_
  calc _ ≤ (Finset.range g.nodes.length).card := Finset.card_filter_le _ _
    _ < fuel := by rwa [Finset.card_range]

end Acyclic

section Connected

variable {g : Graph} {t : Local} {dir : Direction} {x : Local}

theorem connectedOperator_of_ne {v : Local} (h : v ≠ t) (s : Bool) :
    connectedOperator t g v s = .ok (.continue, false) := by
  simp [connectedOperator, h]

-- The searches of `is_connected` from `x` that cannot reach the target continue everywhere they
-- go: the nodes reachable from `x`.
theorem connectedOperator_reachable
    (ht : ¬Relation.ReflTransGen (g.AdjStep (fun _ => True) dir) x t) (v : Local) (s : Bool)
    (hv : Relation.ReflTransGen (g.AdjStep (fun _ => True) dir) x v) :
    ∃ s', connectedOperator t g v s = .ok (.continue, s') :=
  ⟨false, connectedOperator_of_ne (fun (h : v = t) => ht (h ▸ hv)) s⟩

-- A search of `is_connected` that cannot reach its target never stops: it comes back
-- empty-handed or runs out of fuel ...
theorem WellFormed.dfs_connected_unreached (hg : g.WellFormed) (hx : x < g.nodes.length)
    (ht : ¬Relation.ReflTransGen (g.AdjStep (fun _ => True) dir) x t) (fuel : Nat) :
    g.dfs dir (connectedOperator t) alwaysTrueEdgeValidator false fuel x false = .error .outOfFuel ∨
      g.dfs dir (connectedOperator t) alwaysTrueEdgeValidator false fuel x false =
        .ok (.continue, false) := by
  rcases hg.dfs_unstopped (fun _ _ _ => ⟨_, rfl⟩) alwaysTrueEdgeValidator_admits
    (connectedOperator_reachable ht) (fun _ _ hv h => hv.tail h) fuel false .refl hx with h | ⟨s', h⟩
  · exact .inl h
  · obtain rfl : s' = false := Bool.eq_false_iff.mpr fun h' => ht ((dfs_connected_iff h).mp h')
    exact .inr h

-- ... and one that can also walk into a cycle runs out of fuel.
theorem WellFormed.dfs_connected_outOfFuel (hg : g.WellFormed)
    (ht : ¬Relation.ReflTransGen (g.AdjStep (fun _ => True) dir) x t)
    (hcyc : ∃ c, Relation.ReflTransGen (g.AdjStep (fun _ => True) dir) x c ∧
      Relation.TransGen (g.AdjStep (fun _ => True) dir) c c) (fuel : Nat) (s : Bool) :
    g.dfs dir (connectedOperator t) alwaysTrueEdgeValidator false fuel x s = .error .outOfFuel :=
  hg.dfs_outOfFuel_of_closed (fun _ _ _ => ⟨_, rfl⟩) alwaysTrueEdgeValidator_admits
    (connectedOperator_reachable ht) (fun _ _ hv h => hv.tail h) fuel s .refl hcyc

-- A cycle of the edge table is a cycle of both searches: downside from a plain node, and
-- upside read backwards.
theorem WellFormed.transGen_downside (hg : g.WellFormed) {a b : Local} (ha : g.Plain a)
    (h : Relation.TransGen g.EdgeStep a b) :
    Relation.TransGen (g.AdjStep (fun _ => True) .downside) a b := by
  obtain ⟨y, ⟨edge, hmem, hsrc, rfl⟩, hyb⟩ := Relation.TransGen.head'_iff.mp h
  exact .head' (hg.adjStep_downside.mpr ⟨⟨edge, hmem, hsrc, rfl⟩, ha⟩)
    ((hg.reach_downside (hg.dst_plain edge hmem)).mpr hyb)

theorem WellFormed.transGen_upside (hg : g.WellFormed) {a b : Local}
    (h : Relation.TransGen g.EdgeStep a b) :
    Relation.TransGen (g.AdjStep (fun _ => True) .upside) b a :=
  Relation.TransGen.mono (fun _ _ h => hg.adjStep_upside.mpr h) h.swap

theorem WellFormed.plain_of_transGen (hg : g.WellFormed) {a b : Local}
    (h : Relation.TransGen g.EdgeStep a b) : g.Plain b := by
  obtain ⟨_, -, edge, hmem, -, rfl⟩ := Relation.TransGen.tail'_iff.mp h
  exact hg.dst_plain edge hmem

-- `is_connected(a, t)` from a plain node that no path joins to `t`, either way, but that lies
-- downstream or upstream of a cycle never answers: the downside search, or the upside one after
-- it, goes round the cycle until the fuel runs out.
theorem WellFormed.isConnected_outOfFuel (hg : g.WellFormed) {a : Local} (ha : g.Plain a)
    (hat : ¬g.Path a t) (hta : ¬g.Path t a) {c : Local} (hreach : g.Path a c ∨ g.Path c a)
    (hcc : Relation.TransGen g.EdgeStep c c) (fuel : Nat) :
    g.isConnected fuel a t = .error .outOfFuel := by
  have hdown : ¬Relation.ReflTransGen (g.AdjStep (fun _ => True) .downside) a t := by
    rwa [hg.reach_downside ha]
  have hup : ¬Relation.ReflTransGen (g.AdjStep (fun _ => True) .upside) a t := by
    rwa [hg.reach_upside]
  rcases hreach with hac | hca
  · -- the downside search walks into the cycle
    have hdiv := hg.dfs_connected_outOfFuel hdown ⟨c, (hg.reach_downside ha).mpr hac,
      hg.transGen_downside (hg.plain_of_transGen hcc) hcc⟩ fuel false
    simp only [isConnected, hdiv, error_bind]
  · -- the downside search comes back empty-handed, then the upside one walks into the cycle
    have hdiv := hg.dfs_connected_outOfFuel hup ⟨c, hg.reach_upside.mpr hca, hg.transGen_upside hcc⟩
      fuel false
    rcases hg.dfs_connected_unreached ha.lt hdown fuel with h | h
    · simp only [isConnected, h, error_bind]
    · simp only [isConnected, h, ok_bind, Bool.not_false, if_true, hdiv, error_bind]

-- `is_connected(a, t)` from a plain node with no cycle downstream or upstream of it returns once
-- the fuel exceeds the number of nodes: neither of its searches can walk into a cycle.
theorem WellFormed.isConnected_ok_of_no_cycle (hg : g.WellFormed) {a : Local} (ha : g.Plain a)
    (hno : ¬∃ c, (g.Path a c ∨ g.Path c a) ∧ Relation.TransGen g.EdgeStep c c) {fuel : Nat}
    (hfuel : g.nodes.length < fuel) : ∃ r, g.isConnected fuel a t = .ok r := by
  -- a search whose walks and cycles are paths and cycles of the edge table ends
  have hsearch : ∀ dir, (∀ c, Relation.ReflTransGen (g.AdjStep (fun _ => True) dir) a c →
      Relation.TransGen (g.AdjStep (fun _ => True) dir) c c →
        (g.Path a c ∨ g.Path c a) ∧ Relation.TransGen g.EdgeStep c c) → ∀ s,
      ∃ r, g.dfs dir (connectedOperator t) alwaysTrueEdgeValidator false fuel a s = .ok r :=
    fun dir hmap s => hg.dfs_ok_of_no_cycle (P := fun _ => True) (fun _ _ _ => ⟨_, rfl⟩)
      (fun _ _ _ _ => trivial) (fun _ _ _ => ⟨_, rfl⟩) alwaysTrueEdgeValidator_admits ha.lt
      (fun ⟨c, hac, hcc⟩ => hno ⟨c, hmap c (hac.mono fun _ _ h => h.2) (hcc.mono fun _ _ h => h.2)⟩)
      hfuel s
  obtain ⟨⟨_, find⟩, h₁⟩ := hsearch .downside (fun c hac hcc => ⟨.inl ((hg.reach_downside ha).mp hac),
    hcc.mono fun _ _ h => (hg.adjStep_downside.mp h).1⟩) false
  simp only [isConnected, h₁, ok_bind]
  cases find with
  | true => exact ⟨_, rfl⟩
  | false =>
    obtain ⟨⟨_, find₂⟩, h₂⟩ := hsearch .upside (fun c hac hcc => ⟨.inr (hg.reach_upside.mp hac),
      (hcc.mono fun _ _ h => hg.adjStep_upside.mp h).swap⟩) false
    simp only [Bool.not_false, ↓reduceIte, h₂, ok_bind]
    exact ⟨_, rfl⟩

end Connected

section Equivalent

variable {g : Graph}

-- A cycle the upside search of `collect_equivalent_locals` can climb into from `v`: transparent
-- nodes joined by value-preserving edges, leading from `v` back round to themselves.
def UpCycleAbove (g : Graph) (v : Local) : Prop :=
  ∃ c, Relation.ReflTransGen g.UpStep v c ∧ Relation.TransGen g.UpStep c c

theorem findRootOperator_continues {v root : Local} (hv : g.Transparent v) :
    ∃ s', g.findRootOperator v root = .ok (.continue, s') := by
  obtain ⟨r, h⟩ := findRootOperator_ok root hv.plain.lt
  rcases (findRootOperator_spec h).2 with ⟨-, rfl⟩ | ⟨hn, -⟩
  exacts [⟨_, h⟩, absurd hv hn]

-- `find_equivalent_operator` never shrinks its set, and grows it by a node of the graph
-- wherever it continues.
theorem findEquivalentOperator_potential {v : Local} {set set' : Finset Local} {st : DFSStatus}
    (h : g.findEquivalentOperator v set = .ok (st, set')) :
    (Finset.range g.nodes.length \ set').card ≤ (Finset.range g.nodes.length \ set).card ∧
      (st = .continue →
        (Finset.range g.nodes.length \ set').card < (Finset.range g.nodes.length \ set).card) := by
  obtain ⟨hv, ⟨-, h⟩ | ⟨hn, -, h⟩ | ⟨-, -, h⟩⟩ := findEquivalentOperator_spec h
  · obtain ⟨rfl, rfl⟩ := Prod.mk.inj h
    exact ⟨le_rfl, nofun⟩
  · obtain ⟨rfl, rfl⟩ := Prod.mk.inj h
    have hlt : (Finset.range g.nodes.length \ insert v set).card <
        (Finset.range g.nodes.length \ set).card := by
      rw [Finset.sdiff_insert]
      exact Finset.card_erase_lt_of_mem (Finset.mem_sdiff.mpr ⟨Finset.mem_range.mpr hv, hn⟩)
    exact ⟨hlt.le, fun _ => hlt⟩
  · obtain ⟨rfl, rfl⟩ := Prod.mk.inj h
    exact ⟨le_rfl, nofun⟩

-- `collect_equivalent_locals(v)` returns, once the fuel exceeds the number of nodes, exactly when
-- no cycle of transparent nodes joined by value-preserving edges lies upstream of `v`: its
-- downside search is bounded by its set, and its upside search climbs such a cycle for ever.
theorem WellFormed.collectEquivalentLocals_returns_unless_upCycle (hg : g.WellFormed) {v : Local}
    (hv : v < g.nodes.length) :
    (¬g.UpCycleAbove v → ∀ fuel, g.nodes.length < fuel → ∃ S, g.collectEquivalentLocals fuel v = .ok S) ∧
      (g.UpCycleAbove v → ∀ fuel, g.collectEquivalentLocals fuel v = .error .outOfFuel) := by
  constructor
  · intro hno fuel hfuel
    obtain ⟨⟨_, root⟩, h₁⟩ : ∃ r, g.dfs .upside findRootOperator equivalentEdgeValidator true fuel v v
        = .ok r := hg.dfs_ok_of_no_cycle (fun _ s hv => findRootOperator_ok s hv)
      (fun _ _ _ h => ((findRootOperator_spec h).2.resolve_right fun ⟨_, h'⟩ => nomatch h').1)
      equivalentEdgeValidator_ok equivalentEdgeValidator_admits hv hno hfuel v
    obtain ⟨⟨_, S⟩, h₂, -⟩ : ∃ r, g.dfs .downside findEquivalentOperator equivalentEdgeValidator true
        fuel root ∅ = .ok r ∧ _ :=
      dfs_ok_of_potential (Φ := fun s => (Finset.range g.nodes.length \ s).card)
        equivalentEdgeValidator_ok (fun _ s hv => findEquivalentOperator_ok s hv)
        (fun _ _ _ _ h => findEquivalentOperator_potential h) hg.adjacent_lt ∅ (findRoot_lt hv h₁)
        (by simpa using hfuel)
    exact ⟨S, by simp only [collectEquivalentLocals, h₁, h₂, ok_bind]; rfl⟩
  · intro hcyc fuel
    have hdiv : g.dfs .upside findRootOperator equivalentEdgeValidator true fuel v v = .error .outOfFuel :=
      hg.dfs_outOfFuel_of_cycle (R := g.Transparent) equivalentEdgeValidator_ok
        equivalentEdgeValidator_admits (fun _ _ hv => findRootOperator_continues hv)
        (fun _ _ _ _ _ hy => passes_true fun _ h => dfs_error_outOfFuel
          (fun _ s hv => findRootOperator_ok s hv) equivalentEdgeValidator_ok hg.adjacent_lt
          (hg.adjStep_lt hy) h) fuel v hcyc
    simp only [collectEquivalentLocals, hdiv, error_bind]

-- In the swap, slot 1 sits on the copy cycle 1 ← 2 ← 3 ← 1 and its query runs out of fuel, while
-- slot 0, which nothing feeds, has no cycle above it and its query returns.
theorem collectEquivalentLocals_returns_unless_upCycle_swap :
    swapGraph.WellFormed ∧ 0 < swapGraph.nodes.length ∧ 1 < swapGraph.nodes.length ∧
    ¬swapGraph.UpCycleAbove 0 ∧ swapGraph.UpCycleAbove 1 ∧
    (∃ S, swapGraph.collectEquivalentLocals 5 0 = .ok S) ∧
    ∀ fuel, swapGraph.collectEquivalentLocals fuel 1 = .error .outOfFuel := by
  have hg : swapGraph.WellFormed := (wellFormed_translate_new (by decide : ∀ instr ∈ swapThroughTemp,
    instr.localsBelow 4) (show (Graph.new ⟨0, 0⟩ dummySp 2 4).translate swapThroughTemp = .ok swapGraph
      from rfl)).1
  have hstuck : ∀ y, ¬swapGraph.UpStep 0 y := by
    rintro y ⟨-, n, e, edge, hn, -, -, he, -⟩
    cases hn
    exact List.not_mem_nil _ he
  have hno : ¬swapGraph.UpCycleAbove 0 := by
    rintro ⟨c, hc, hcc⟩
    rcases hc.cases_head with rfl | ⟨y, hy, -⟩
    · obtain ⟨y, hy, -⟩ := Relation.TransGen.head'_iff.mp hcc
      exact hstuck y hy
    · exact hstuck y hy
  -- the copies climbed through edges 1, 2 and 0
  have h12 : swapGraph.UpStep 1 2 := ⟨⟨_, rfl, rfl⟩, _, 1, _, rfl, rfl, ⟨_, rfl, .inl rfl⟩, by decide, rfl⟩
  have h23 : swapGraph.UpStep 2 3 := ⟨⟨_, rfl, rfl⟩, _, 2, _, rfl, rfl, ⟨_, rfl, .inl rfl⟩, by decide, rfl⟩
  have h31 : swapGraph.UpStep 3 1 := ⟨⟨_, rfl, rfl⟩, _, 0, _, rfl, rfl, ⟨_, rfl, .inl rfl⟩, by decide, rfl⟩
  have hcyc : swapGraph.UpCycleAbove 1 := ⟨1, .refl, .head h12 (.head h23 (.single h31))⟩
  exact ⟨hg, by decide, by decide, hno, hcyc,
    (hg.collectEquivalentLocals_returns_unless_upCycle (v := 0) (by decide)).1 hno 5 (by decide),
    (hg.collectEquivalentLocals_returns_unless_upCycle (v := 1) (by decide)).2 hcyc⟩

end Equivalent

end RapxDataflow.Graph
