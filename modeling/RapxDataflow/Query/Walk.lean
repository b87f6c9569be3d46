import Mathlib.Data.Finset.Card
import RapxDataflow.Query.Connected

namespace RapxDataflow

-- The adjacency list the search in direction `dir` runs through at a node, in the code's order:
-- `in_edges` upside, `out_edges` downside, and both in turn for `Both`.
def GraphNode.searchEdges (n : GraphNode) : Direction → List EdgeIdx
  | .upside => n.inEdges
  | .downside => n.outEdges
  | .both => n.inEdges ++ n.outEdges

namespace Graph

-- Edge `e` takes the search from `x` to `y`: it is on `x`'s adjacency list for `dir`, the
-- validator admits it, and `y` is its other end.
def AdjEdge (g : Graph) (V : EdgeIdx → Prop) (dir : Direction) (x : Local) (e : EdgeIdx)
    (y : Local) : Prop :=
  ∃ n edge, g.nodes[x]? = some n ∧ g.edges[e]? = some edge ∧ V e ∧
    match dir with
    | .upside => e ∈ n.inEdges ∧ edge.src = y
    | .downside => e ∈ n.outEdges ∧ edge.dst = y
    | .both => (e ∈ n.inEdges ∧ edge.src = y) ∨ (e ∈ n.outEdges ∧ edge.dst = y)

-- A walk of the search from `x` to `z`, as the list of the edges it follows, every node before
-- `z` letting the search continue.
inductive VisitWalk (g : Graph) (dir : Direction) (P : Local → DFSStatus) (V : EdgeIdx → Prop) :
    Local → List EdgeIdx → Local → Prop
  | here (x : Local) : VisitWalk g dir P V x [] x
  | step {x y z : Local} {e : EdgeIdx} {es : List EdgeIdx} : P x = .continue →
      g.AdjEdge V dir x e y → VisitWalk g dir P V y es z → VisitWalk g dir P V x (e :: es) z

-- Depth-first order on the walks from `x`, as lists of edges: a walk comes before the walks that
-- extend it, and where two walks part, the one whose edge comes first in the list the search runs
-- through at the parting node comes first.
inductive DFSBefore (g : Graph) (dir : Direction) (V : EdgeIdx → Prop) :
    Local → List EdgeIdx → List EdgeIdx → Prop
  | nil {x : Local} {e : EdgeIdx} {es : List EdgeIdx} : DFSBefore g dir V x [] (e :: es)
  | same {x y : Local} {e : EdgeIdx} {es es' : List EdgeIdx} : g.AdjEdge V dir x e y →
      DFSBefore g dir V y es es' → DFSBefore g dir V x (e :: es) (e :: es')
  | earlier {x : Local} {n : GraphNode} {e e' : EdgeIdx} {es es' : List EdgeIdx} :
      g.nodes[x]? = some n → List.Sublist [e, e'] (n.searchEdges dir) →
      DFSBefore g dir V x (e :: es) (e' :: es')

-- A node operator that answers `P` and records the node it is called on, as a closure pushing
-- `idx` onto a captured `Vec` would.
def logOperator (P : Local → DFSStatus) (_ : Graph) (idx : Local) (log : List Local) :
    Except Fault (DFSStatus × List Local) :=
  pure (P idx, log ++ [idx])

section Walk

variable {g : Graph} {dir : Direction} {P : Local → DFSStatus} {V : EdgeIdx → Prop} {x y : Local}

theorem visitWalk_iff {w : List EdgeIdx} {z : Local} : g.VisitWalk dir P V x w z ↔
    (w = [] ∧ z = x) ∨ ∃ e es y, w = e :: es ∧ P x = .continue ∧ g.AdjEdge V dir x e y ∧
      g.VisitWalk dir P V y es z := by
  constructor
  · rintro (_ | ⟨hP, hadj, hrest⟩)
    · exact .inl ⟨rfl, rfl⟩
    · exact .inr ⟨_, _, _, rfl, hP, hadj, hrest⟩
  · rintro (⟨rfl, rfl⟩ | ⟨e, es, y, rfl, hP, hadj, hrest⟩)
    · exact .here _
    · exact .step hP hadj hrest

-- In one direction the search follows one adjacency list of a node, to one end of each edge.
theorem exists_side (hdir : dir ≠ .both) {n : GraphNode} (hn : g.nodes[x]? = some n) :
    ∃ (L : List EdgeIdx) (field : GraphEdge → Local), L = n.searchEdges dir ∧
      (∀ {σ : Type} (val : Graph → EdgeIdx → Except Fault DFSStatus)
        (visit : Local → σ → Except Fault (DFSStatus × σ)) (s : σ),
        g.traverseDirection val true visit n dir s = g.traverse val true field visit L s) ∧
      ∀ e y, g.AdjEdge V dir x e y ↔ e ∈ L ∧ ∃ edge, g.edges[e]? = some edge ∧ V e ∧ field edge = y := by
  have side : ∀ {sel : GraphNode → List EdgeIdx} {field : GraphEdge → Local},
      (∀ e y, g.AdjEdge V dir x e y ↔ ∃ n' edge, g.nodes[x]? = some n' ∧ g.edges[e]? = some edge ∧
        V e ∧ e ∈ sel n' ∧ field edge = y) →
      ∀ e y, g.AdjEdge V dir x e y ↔ e ∈ sel n ∧ ∃ edge, g.edges[e]? = some edge ∧ V e ∧ field edge = y :=
    fun hiff e y => (hiff e y).trans
      ⟨fun ⟨_, edge, hn', hedge, hv, he, hy⟩ =>
        ⟨Option.some.inj (hn.symm.trans hn') ▸ he, edge, hedge, hv, hy⟩,
        fun ⟨he, edge, hedge, hv, hy⟩ => ⟨n, edge, hn, hedge, hv, he, hy⟩⟩
  cases dir with
  | upside => exact ⟨_, _, rfl, fun _ _ _ => rfl, side fun _ _ => Iff.rfl⟩
  | downside => exact ⟨_, _, rfl, fun _ _ _ => rfl, side fun _ _ => Iff.rfl⟩
  | both => exact absurd rfl hdir

section Exhaustive

variable {σ : Type} {val : Graph → EdgeIdx → Except Fault DFSStatus} {upd : σ → Local → σ}

-- The exhaustive loop over a stretch `L` of `x`'s adjacency list without repeated ids: if each
-- visit calls the operator once per walk `W` from the edge's end, in depth-first order, the loop
-- calls it once per walk that starts with an admitted edge of `L`, in depth-first order.
theorem traverse_all_walks (hval : ∀ e st, val g e = .ok st → (st = .continue ↔ V e))
    {W : Local → List EdgeIdx → Local → Prop} {field : GraphEdge → Local}
    {visit : Local → σ → Except Fault (DFSStatus × σ)}
    (hvisit : ∀ y s st s', visit y s = .ok (st, s') → ∃ ws : List (List EdgeIdx × Local),
      (ws.map Prod.fst).Nodup ∧ (∀ w z, (w, z) ∈ ws ↔ W y w z) ∧
        ws.Pairwise (fun p q => g.DFSBefore dir V y p.1 q.1) ∧ s' = (ws.map Prod.snd).foldl upd s)
    {x : Local} {n : GraphNode} (hn : g.nodes[x]? = some n)
    (hfield : ∀ e ∈ n.searchEdges dir, ∀ edge, g.edges[e]? = some edge → V e →
      g.AdjEdge V dir x e (field edge))
    {L : List EdgeIdx} (hLN : List.Sublist L (n.searchEdges dir)) (hL : L.Nodup) {s s' : σ}
    {stopped : Bool} (h : g.traverse val true field visit L s = .ok (stopped, s')) :
    stopped = false ∧ ∃ ws : List (List EdgeIdx × Local), (ws.map Prod.fst).Nodup ∧
      (∀ w z, (w, z) ∈ ws ↔ ∃ e es edge, w = e :: es ∧ e ∈ L ∧ g.edges[e]? = some edge ∧ V e ∧
        W (field edge) es z) ∧ ws.Pairwise (fun p q => g.DFSBefore dir V x p.1 q.1) ∧
      s' = (ws.map Prod.snd).foldl upd s := by
  induction L generalizing s with
  | nil =>
    obtain ⟨rfl, rfl⟩ := Prod.mk.inj (pure_eq_ok.mp h)
    exact ⟨rfl, [], List.nodup_nil, by simp, List.Pairwise.nil, rfl⟩
  | cons e rest ih =>
    obtain ⟨he, hrest⟩ := List.nodup_cons.mp hL
    have hLN' : List.Sublist rest (n.searchEdges dir) := (List.sublist_cons_self e rest).trans hLN
    simp only [traverse, bind_eq_ok, edge_eq_ok] at h
    obtain ⟨edge, hedge, st, hst, h⟩ := h
    have hV := hval e st hst
    cases st with
    | stop =>
      have hne : ¬V e := fun hv => by simpa using hV.mpr hv
      obtain ⟨hs, ws, hnd, hmem, hpw, rfl⟩ := ih hLN' hrest h
      refine ⟨hs, ws, hnd, fun w z => (hmem w z).trans ⟨?_, ?_⟩, hpw, rfl⟩
      · rintro ⟨e', es, edge', rfl, he', h'⟩
        exact ⟨e', es, edge', rfl, List.mem_cons_of_mem _ he', h'⟩
      · rintro ⟨e', es, edge', rfl, he', hedge', hv', hw⟩
        rcases List.mem_cons.mp he' with rfl | he'
        · exact absurd hv' hne
        · exact ⟨e', es, edge', rfl, he', hedge', hv', hw⟩
    | «continue» =>
      simp only [bind_eq_ok] at h
      obtain ⟨⟨result, s₁⟩, hres, h⟩ := h
      simp only [Bool.not_true, Bool.false_eq_true, and_false, ↓reduceIte] at h
      obtain ⟨hs, ws, hnd, hmem, hpw, rfl⟩ := ih hLN' hrest h
      obtain ⟨wse, hnde, hmeme, hpwe, rfl⟩ := hvisit _ _ _ _ hres
      -- the walks through `e` come first, each prefixed by `e`
      have hfirst : ∀ p ∈ ws, ∃ e' es, p.1 = e' :: es ∧ e' ∈ rest := fun ⟨w, z⟩ hp => by
        obtain ⟨e', es, -, rfl, he', -⟩ := (hmem w z).mp hp
        exact ⟨e', es, rfl, he'⟩
      have hmap : (wse.map fun p => (e :: p.1, p.2)).map Prod.fst =
          (wse.map Prod.fst).map (List.cons e) := by
        simp only [List.map_map]; rfl
      refine ⟨hs, wse.map (fun p => (e :: p.1, p.2)) ++ ws, ?_, fun w z => ?_, ?_, ?_⟩
      · rw [List.map_append, hmap, List.nodup_append]
        refine ⟨hnde.map List.cons_injective, hnd, fun a ha hb => ?_⟩
        obtain ⟨w, -, rfl⟩ := List.mem_map.mp ha
        obtain ⟨p, hp, hpa⟩ := List.mem_map.mp hb
        obtain ⟨e', es, hp1, he'⟩ := hfirst p hp
        exact he ((List.cons.inj (hpa.symm.trans hp1)).1 ▸ he')
      · simp only [List.mem_append, List.mem_map, Prod.mk.injEq, List.mem_cons]
        constructor
        · rintro (⟨⟨es, z'⟩, hp, rfl, rfl⟩ | hp)
          · exact ⟨e, es, edge, rfl, .inl rfl, hedge, hV.mp rfl, (hmeme es _).mp hp⟩
          · obtain ⟨e', es, edge', rfl, he', h'⟩ := (hmem w z).mp hp
            exact ⟨e', es, edge', rfl, .inr he', h'⟩
        · rintro ⟨e', es, edge', rfl, (rfl | he'), hedge', hv', hw⟩
          · obtain rfl := Option.some.inj (hedge.symm.trans hedge')
            exact .inl ⟨(es, z), (hmeme es z).mpr hw, rfl, rfl⟩
          · exact .inr ((hmem _ z).mpr ⟨e', es, edge', rfl, he', hedge', hv', hw⟩)
      · -- the walks through `e` keep their order behind `e`, and come before those through the
        -- later edges of the list
        refine List.pairwise_append.mpr ⟨List.pairwise_map.mpr (hpwe.imp fun hpq =>
          .same (hfield e (hLN.subset (List.mem_cons_self _ _)) edge hedge (hV.mp rfl)) hpq), hpw,
          fun a ha b hb => ?_⟩
        obtain ⟨p, -, rfl⟩ := List.mem_map.mp ha
        obtain ⟨e', es, hb1, he'⟩ := hfirst b hb
        exact hb1 ▸ .earlier hn ((List.Sublist.cons₂ e (List.singleton_sublist.mpr he')).trans hLN)
      · simp only [List.map_append, List.map_map, List.foldl_append]
        rfl

-- The exhaustive search (`traverse_all = true`) with a node operator answering `P`, on a graph
-- whose adjacency lists repeat no id, calls the operator once per walk it can take, on the
-- walk's last node, and returns `P now`.
theorem dfs_all_walks (hval : ∀ e st, val g e = .ok st → (st = .continue ↔ V e)) (hdir : dir ≠ .both)
    {op : Graph → Local → σ → Except Fault (DFSStatus × σ)} (hop : ∀ x s, op g x s = .ok (P x, upd s x))
    (hnodup : ∀ (v : Local) (n : GraphNode), g.nodes[v]? = some n → n.inEdges.Nodup ∧ n.outEdges.Nodup)
    {fuel : Nat} : ∀ {x : Local} {s s' : σ} {st : DFSStatus}, g.dfs dir op val true fuel x s = .ok (st, s') →
      st = P x ∧ ∃ ws : List (List EdgeIdx × Local), (ws.map Prod.fst).Nodup ∧
        (∀ w z, (w, z) ∈ ws ↔ g.VisitWalk dir P V x w z) ∧
        ws.Pairwise (fun p q => g.DFSBefore dir V x p.1 q.1) ∧ s' = (ws.map Prod.snd).foldl upd s := by
  induction fuel with
  | zero => intro x s s' st h; exact absurd h throw_ne_ok
  | succ fuel ih =>
    intro x s s' st h
    simp only [dfs, hop, ok_bind] at h
    cases hP : P x with
    | stop =>
      rw [hP] at h
      obtain ⟨rfl, rfl⟩ := Prod.mk.inj (pure_eq_ok.mp h)
      refine ⟨rfl, [([], x)], List.nodup_singleton _, fun w z => ?_, List.pairwise_singleton _ _, rfl⟩
      rw [visitWalk_iff, hP]
      simp
    | «continue» =>
      rw [hP] at h
      simp only [bind_eq_ok, node_eq_ok] at h
      obtain ⟨n, hn, ⟨stopped, s₂⟩, htr, h⟩ := h
      obtain ⟨rfl, rfl⟩ := Prod.mk.inj (pure_eq_ok.mp h)
      obtain ⟨L, field, hL, htrav, hadj⟩ := exists_side (V := V) hdir hn
      have hLnd : L.Nodup := by
        subst hL
        cases dir
        exacts [(hnodup x n hn).1, (hnodup x n hn).2, absurd rfl hdir]
      rw [htrav] at htr
      obtain ⟨rfl, ws, hnd, hmem, hpw, rfl⟩ :=
        traverse_all_walks hval (fun v t _ _ (h : g.dfs dir op val true fuel v t = _) => (ih h).2) hn
          (fun e he edge hedge hv => (hadj e _).mpr ⟨hL ▸ he, edge, hedge, hv, rfl⟩) (hL ▸ .refl _)
          hLnd htr
      -- the empty walk, at `x`, comes first
      have hfirst : ∀ p ∈ ws, ∃ e es, p.1 = e :: es := fun ⟨w, z⟩ hp => by
        obtain ⟨e, es, -, rfl, -⟩ := (hmem w z).mp hp
        exact ⟨e, es, rfl⟩
      refine ⟨rfl, ([], x) :: ws, ?_, fun w z => ?_,
        List.pairwise_cons.mpr ⟨fun p hp => ?_, hpw⟩, rfl⟩
      · refine List.nodup_cons.mpr ⟨fun h => ?_, hnd⟩
        obtain ⟨p, hp, hp1⟩ := List.mem_map.mp h
        obtain ⟨e, es, h⟩ := hfirst p hp
        exact List.cons_ne_nil e es (h.symm.trans hp1)
      · rw [visitWalk_iff, hP, List.mem_cons, hmem, Prod.mk.injEq]
        refine or_congr_right ⟨?_, ?_⟩
        · rintro ⟨e, es, edge, rfl, he, hedge, hv, hw⟩
          exact ⟨e, es, field edge, rfl, rfl, (hadj e _).mpr ⟨he, edge, hedge, hv, rfl⟩, hw⟩
        · rintro ⟨e, es, y, rfl, -, hxy, hw⟩
          obtain ⟨he, edge, hedge, hv, rfl⟩ := (hadj e y).mp hxy
          exact ⟨e, es, edge, rfl, he, hedge, hv, hw⟩
      · obtain ⟨e, es, hp1⟩ := hfirst p hp
        exact hp1 ▸ .nil

end Exhaustive

section Acyclic

variable (hadj : ∀ (v : Local) (n : GraphNode), g.nodes[v]? = some n → ∀ e ∈ n.inEdges ++ n.outEdges,
  ∃ edge : GraphEdge, g.edges[e]? = some edge ∧ edge.src < g.nodes.length ∧ edge.dst < g.nodes.length)

include hadj in
-- On a graph whose adjacency lists name edges between existing nodes, a step ends at a node.
theorem adjStep_lt (h : g.AdjStep V dir x y) : y < g.nodes.length := by
  obtain ⟨n, e, edge, hn, hedge, -, hstep⟩ := h
  have hends : ∀ e ∈ n.inEdges ++ n.outEdges, g.edges[e]? = some edge →
      edge.src < g.nodes.length ∧ edge.dst < g.nodes.length := fun e he hedge' => by
    obtain ⟨edge', h', hs, hd⟩ := hadj x n hn e he
    obtain rfl := Option.some.inj (hedge'.symm.trans h')
    exact ⟨hs, hd⟩
  cases dir with
  | upside => exact hstep.2 ▸ (hends e (List.mem_append_left _ hstep.1) hedge).1
  | downside => exact hstep.2 ▸ (hends e (List.mem_append_right _ hstep.1) hedge).2
  | both =>
    rcases hstep with ⟨he, rfl⟩ | ⟨he, rfl⟩
    · exact (hends e (List.mem_append_left _ he) hedge).1
    · exact (hends e (List.mem_append_right _ he) hedge).2

open Classical in
include hadj in
-- Without a cycle reachable from `now`, the number of nodes a node reaches in one or more steps
-- drops along every step from a node reachable from `now`, and starts below the node count.
theorem exists_measure_of_acyclic {now : Local} (hnow : now < g.nodes.length)
    (hacyclic : ∀ x, Relation.ReflTransGen (g.AdjStep V dir) now x →
      ¬Relation.TransGen (g.AdjStep V dir) x x) :
    ∃ μ : Local → Nat, μ now < g.nodes.length ∧
      ∀ x y, Relation.ReflTransGen (g.AdjStep V dir) now x → g.AdjStep V dir x y → μ y < μ x := by
  refine ⟨fun x => ((Finset.range g.nodes.length).filter (Relation.TransGen (g.AdjStep V dir) x)).card,
    ?_, fun x y hx hxy => Finset.card_lt_card ?_⟩
  · calc _ < (Finset.range g.nodes.length).card :=
          Finset.card_lt_card (Finset.filter_ssubset.mpr
            ⟨now, Finset.mem_range.mpr hnow, hacyclic now .refl⟩)
      _ = g.nodes.length := Finset.card_range _
  · refine (Finset.ssubset_iff_of_subset fun z hz => ?_).mpr ⟨y, ?_, ?_⟩
    · rw [Finset.mem_filter] at hz ⊢
      exact ⟨hz.1, .head hxy hz.2⟩
    · rw [Finset.mem_filter, Finset.mem_range]
      exact ⟨adjStep_lt hadj hxy, .single hxy⟩
    · rw [Finset.mem_filter, not_and]
      exact fun _ => hacyclic y (hx.tail hxy)

end Acyclic

-- The search with an operator answering `P` and a validator admitting `V`, from an existing node
-- that reaches no cycle of admitted steps, on a graph whose adjacency lists name edges between
-- existing nodes and repeat no id, ends within the node count of nested calls. Short-circuit,
-- it returns `Stop` exactly when a `SearchPath` leaves `now`; exhaustive, it returns `P now` and
-- calls the operator once per walk, counted as a list of edges, on the walk's last node, the
-- walks in depth-first order.
theorem dfs_shortCircuit_and_exhaustive {σ : Type} (hdir : dir ≠ .both)
    {op : Graph → Local → σ → Except Fault (DFSStatus × σ)} {upd : σ → Local → σ}
    (hop : ∀ x s, op g x s = .ok (P x, upd s x))
    {val : Graph → EdgeIdx → Except Fault DFSStatus}
    (hval_ok : ∀ e edge, g.edges[e]? = some edge → ∃ st, val g e = .ok st)
    (hval : ∀ e st, val g e = .ok st → (st = .continue ↔ V e))
    (hadj : ∀ (v : Local) (n : GraphNode), g.nodes[v]? = some n → ∀ e ∈ n.inEdges ++ n.outEdges,
      ∃ edge : GraphEdge, g.edges[e]? = some edge ∧ edge.src < g.nodes.length ∧
        edge.dst < g.nodes.length)
    (hnodup : ∀ (v : Local) (n : GraphNode), g.nodes[v]? = some n → n.inEdges.Nodup ∧ n.outEdges.Nodup)
    {now : Local} (hnow : now < g.nodes.length)
    (hacyclic : ∀ x, Relation.ReflTransGen (g.AdjStep V dir) now x →
      ¬Relation.TransGen (g.AdjStep V dir) x x)
    {fuel : Nat} (hfuel : g.nodes.length ≤ fuel) (s : σ) :
    (∃ st s', g.dfs dir op val false fuel now s = .ok (st, s') ∧
      (st = .stop ↔ ∃ z, g.SearchPath dir P V now z)) ∧
    ∃ ws : List (List EdgeIdx × Local), (ws.map Prod.fst).Nodup ∧
      (∀ w z, (w, z) ∈ ws ↔ g.VisitWalk dir P V now w z) ∧
      ws.Pairwise (fun p q => g.DFSBefore dir V now p.1 q.1) ∧
      g.dfs dir op val true fuel now s = .ok (P now, (ws.map Prod.snd).foldl upd s) := by
  obtain ⟨μ, hμnow, hμ⟩ := exists_measure_of_acyclic hadj hnow hacyclic
  have hends : ∀ ta, ∃ r, g.dfs dir op val ta fuel now s = .ok r := fun _ =>
    dfs_ok_of_measure_on _ μ (fun v s _ => ⟨_, hop v s⟩) hval_ok hval hadj
      (fun _ _ hx hxy => hx.tail hxy) hμ s .refl hnow (Nat.lt_of_lt_of_le hμnow hfuel)
  obtain ⟨⟨st, s'⟩, hshort⟩ := hends false
  obtain ⟨⟨st₂, s₂⟩, hall⟩ := hends true
  have hopP : ∀ v s st s', op g v s = .ok (st, s') → st = P v := fun v s _ _ h =>
    (Prod.mk.inj (Except.ok.inj ((hop v s).symm.trans h))).1.symm
  obtain ⟨rfl, ws, hnd, hmem, hpw, rfl⟩ := dfs_all_walks hval hdir hop hnodup hall
  exact ⟨⟨st, s', hshort, dfs_stop_iff hopP hval hshort⟩, ws, hnd, hmem, hpw, hall⟩

end Walk

section Builder

variable {g : Graph} {V : EdgeIdx → Prop}

theorem idsWhere_nodup (edges : List GraphEdge) (p : GraphEdge → Bool) : (idsWhere edges p).Nodup :=
  (List.nodup_range _).filter _

-- The builder's adjacency lists repeat no edge id.
theorem WellFormed.adjacency_nodup (hg : g.WellFormed) (v : Local) (n : GraphNode)
    (hn : g.nodes[v]? = some n) : n.inEdges.Nodup ∧ n.outEdges.Nodup := by
  refine ⟨hg.in_edges v n hn ▸ idsWhere_nodup _ _, ?_⟩
  rw [hg.out_edges v n hn]
  split
  · exact List.nodup_nil
  · exact idsWhere_nodup _ _

-- A rank that rises along every edge of a well-formed graph rules out cycles of upside steps.
theorem WellFormed.not_transGen_upside (hg : g.WellFormed) (rank : Local → Nat)
    (hrank : ∀ edge ∈ g.edges, rank edge.src < rank edge.dst) (x : Local) :
    ¬Relation.TransGen (g.AdjStep V .upside) x x := by
  have hstep : ∀ a b, g.AdjStep V .upside a b → rank b < rank a := fun a b h => by
    obtain ⟨e, edge, hedge, -, rfl, rfl⟩ := hg.adjStep_upside_iff.mp h
    exact hrank edge (List.getElem?_mem hedge)
  have hdrop : ∀ a b, Relation.TransGen (g.AdjStep V .upside) a b → rank b < rank a := by
    intro a b h
    induction h with
    | single h => exact hstep _ _ h
    | tail _ h ih => exact lt_trans (hstep _ _ h) ih
  exact fun h => lt_irrefl _ (hdrop x x h)

theorem dfs_shortCircuit_and_exhaustive_addGraph :
    (Graph.new ⟨0, 0⟩ dummySp 2 3).translate addParams = .ok addGraph ∧
    (∀ x, Relation.ReflTransGen (addGraph.AdjStep (fun _ => True) .upside) 0 x →
      ¬Relation.TransGen (addGraph.AdjStep (fun _ => True) .upside) x x) ∧
    (∃ st s', addGraph.dfs .upside (logOperator fun _ => .continue) alwaysTrueEdgeValidator false 3 0
        [] = .ok (st, s') ∧
      (st = .stop ↔ ∃ z, addGraph.SearchPath .upside (fun _ => .continue) (fun _ => True) 0 z)) ∧
    ∃ ws : List (List EdgeIdx × Local), (ws.map Prod.fst).Nodup ∧
      (∀ w z, (w, z) ∈ ws ↔ addGraph.VisitWalk .upside (fun _ => .continue) (fun _ => True) 0 w z) ∧
      ws.Pairwise (fun p q => addGraph.DFSBefore .upside (fun _ => True) 0 p.1 q.1) ∧
      addGraph.dfs .upside (logOperator fun _ => .continue) alwaysTrueEdgeValidator true 3 0 [] =
        .ok (.continue, (ws.map Prod.snd).foldl (fun log x => log ++ [x]) []) := by
  have hg := (wellFormed_translate_new (by decide)
    (show (Graph.new ⟨0, 0⟩ dummySp 2 3).translate addParams = .ok addGraph from rfl)).1
  have hacyclic : ∀ x, Relation.ReflTransGen (addGraph.AdjStep (fun _ => True) .upside) 0 x →
      ¬Relation.TransGen (addGraph.AdjStep (fun _ => True) .upside) x x :=
    fun x _ => hg.not_transGen_upside (fun v => if v = 0 then 1 else 0) (by decide) x
  exact ⟨rfl, hacyclic, dfs_shortCircuit_and_exhaustive (by decide) (fun _ _ => rfl)
    (fun _ _ _ => ⟨_, rfl⟩) alwaysTrueEdgeValidator_admits hg.adjacent_lt hg.adjacency_nodup
    (by decide) hacyclic (le_refl 3) []⟩

-- `_0 = Add(copy _1, copy _1)`: two copy edges from slot 1 into slot 0.
def addTwice : List Instr :=
  [.statement ⟨.assign ⟨0, []⟩ (.binaryOp .add (.copy ⟨1, []⟩) (.copy ⟨1, []⟩)), dummySp⟩]

def addTwiceGraph : Graph where
  defId := ⟨0, 0⟩
  span := dummySp
  argc := 1
  nodes := [⟨.checkedBinaryOp, dummySp, 1, [], [0, 1]⟩, ⟨.nop, dummySp, 0, [0, 1], []⟩]
  edges := [⟨1, 0, .copy, 0⟩, ⟨1, 0, .copy, 0⟩]
  nLocals := 2

-- Counted by node sequences, the exhaustive search calls the operator too often: the walk 0, 1
-- runs along either copy edge, and node 1 is visited twice. With the edge table emptied, the
-- adjacency lists name missing edges and the search faults instead of answering.
theorem dfs_visits_parallel_walk_twice :
    (Graph.new ⟨0, 0⟩ dummySp 1 2).translate addTwice = .ok addTwiceGraph ∧
    addTwiceGraph.dfs .upside (logOperator fun _ => .continue) alwaysTrueEdgeValidator true 2 0 [] =
      .ok (.continue, [0, 1, 1]) ∧
    ({ addTwiceGraph with edges := [] } : Graph).dfs .upside (logOperator fun _ => .continue)
      alwaysTrueEdgeValidator false 2 0 [] = .error .indexOutOfBounds :=
  ⟨rfl, rfl, rfl⟩

end Builder

end Graph

end RapxDataflow
