import RapxDataflow.Query
import Mathlib.Logic.Relation

namespace RapxDataflow.Graph

-- One step of the search from `x`: an edge of `x`'s adjacency list in direction `dir` that
-- the validator admits (`V`), to its other end `y`.
def AdjStep (g : Graph) (V : EdgeIdx → Prop) (dir : Direction) (x y : Local) : Prop :=
  ∃ n e edge, g.nodes[x]? = some n ∧ g.edges[e]? = some edge ∧ V e ∧
    match dir with
    | .upside => e ∈ n.inEdges ∧ edge.src = y
    | .downside => e ∈ n.outEdges ∧ edge.dst = y
    | .both => (e ∈ n.inEdges ∧ edge.src = y) ∨ (e ∈ n.outEdges ∧ edge.dst = y)

-- A walk the search can take from `x` to a node `z` where the node operator stops, every
-- node before `z` letting it continue.
inductive SearchPath (g : Graph) (dir : Direction) (P : Local → DFSStatus) (V : EdgeIdx → Prop) :
    Local → Local → Prop
  | stop {x} : P x = .stop → SearchPath g dir P V x x
  | step {x y z} : P x = .continue → AdjStep g V dir x y → SearchPath g dir P V y z →
      SearchPath g dir P V x z

-- Inside a set that a relation's steps do not leave, its walks and cycles take every step from
-- the set.
theorem reflTransGen_within {α : Type} {r : α → α → Prop} {R : α → Prop}
    (hR : ∀ x y, R x → r x y → R y) {a b : α} (ha : R a) (h : Relation.ReflTransGen r a b) :
    Relation.ReflTransGen (fun x y => R x ∧ r x y) a b ∧ R b := by
  induction h with
  | refl => exact ⟨.refl, ha⟩
  | tail _ hbc ih => exact ⟨ih.1.tail ⟨ih.2, hbc⟩, hR _ _ ih.2 hbc⟩

theorem transGen_within {α : Type} {r : α → α → Prop} {R : α → Prop}
    (hR : ∀ x y, R x → r x y → R y) {c : α} (hc : R c) (h : Relation.TransGen r c c) :
    Relation.TransGen (fun x y => R x ∧ r x y) c c := by
  obtain ⟨d, hcd, hdc⟩ := Relation.TransGen.head'_iff.mp h
  exact .head' ⟨hc, hcd⟩ (reflTransGen_within hR (hR c d hc hcd) hdc).1

section Short

variable {σ : Type} {g : Graph} {val : Graph → EdgeIdx → Except Fault DFSStatus}
  {V : EdgeIdx → Prop} {field : GraphEdge → Local} {visit : Local → σ → Except Fault (DFSStatus × σ)}

-- With `traverse_all = false` the loop stops exactly when some admitted edge leads to a
-- node from which the recursive call stops.
theorem traverse_stop_iff {Q : Local → Prop}
    (hval : ∀ e st, val g e = .ok st → (st = .continue ↔ V e))
    (hvisit : ∀ v s st s', visit v s = .ok (st, s') → (st = .stop ↔ Q v)) {L : List EdgeIdx} {s s' : σ}
    {stopped : Bool} (h : g.traverse val false field visit L s = .ok (stopped, s')) :
    stopped = true ↔ ∃ e ∈ L, ∃ edge, g.edges[e]? = some edge ∧ V e ∧ Q (field edge) := by
  induction L generalizing s with
  | nil =>
    obtain ⟨rfl, -⟩ := Prod.mk.inj (pure_eq_ok.mp h)
    simp
  | cons e rest ih =>
    simp only [traverse, bind_eq_ok, edge_eq_ok] at h
    obtain ⟨edge, hedge, st, hst, h⟩ := h
    have hV := hval e st hst
    cases st with
    | stop =>
      have hne : ¬V e := fun hv => by simpa using hV.mpr hv
      rw [ih h]
      simp only [List.mem_cons, exists_eq_or_imp, hedge, Option.some.injEq, exists_eq_left', hne,
        false_and, false_or]
    | «continue» =>
      simp only [bind_eq_ok] at h
      obtain ⟨⟨result, s₁⟩, hres, h⟩ := h
      have hQ := hvisit _ _ _ _ hres
      by_cases hr : result = .stop
      · simp only [hr, Bool.not_false, and_self, ↓reduceIte, pure_eq_ok, Prod.mk.injEq] at h
        simp only [h.1, true_iff]
        exact ⟨e, List.mem_cons_self _ _, edge, hedge, hV.mp rfl, hQ.mp hr⟩
      · simp only [hr, false_and, ↓reduceIte] at h
        rw [ih h]
        simp only [List.mem_cons, exists_eq_or_imp, hedge, Option.some.injEq, exists_eq_left',
          hV.mp rfl, true_and, ← hQ, hr, false_or]

theorem traverseDirection_stop_iff {Q : Local → Prop}
    (hval : ∀ e st, val g e = .ok st → (st = .continue ↔ V e))
    (hvisit : ∀ v s st s', visit v s = .ok (st, s') → (st = .stop ↔ Q v)) {now : Local}
    {n : GraphNode} (hn : g.nodes[now]? = some n) {dir : Direction} {s s' : σ} {stopped : Bool}
    (h : g.traverseDirection val false visit n dir s = .ok (stopped, s')) :
    stopped = true ↔ ∃ y, g.AdjStep V dir now y ∧ Q y := by
  cases dir with
  | upside =>
    rw [traverse_stop_iff hval hvisit h]
    constructor
    · rintro ⟨e, he, edge, hedge, hv, hq⟩
      exact ⟨_, ⟨n, e, edge, hn, hedge, hv, he, rfl⟩, hq⟩
    · rintro ⟨y, ⟨n', e, edge, hn', hedge, hv, he, rfl⟩, hq⟩
      obtain rfl : n = n' := Option.some_injective _ (hn.symm.trans hn')
      exact ⟨e, he, edge, hedge, hv, hq⟩
  | downside =>
    rw [traverse_stop_iff hval hvisit h]
    constructor
    · rintro ⟨e, he, edge, hedge, hv, hq⟩
      exact ⟨_, ⟨n, e, edge, hn, hedge, hv, he, rfl⟩, hq⟩
    · rintro ⟨y, ⟨n', e, edge, hn', hedge, hv, he, rfl⟩, hq⟩
      obtain rfl : n = n' := Option.some_injective _ (hn.symm.trans hn')
      exact ⟨e, he, edge, hedge, hv, hq⟩
  | both =>
    simp only [traverseDirection, bind_eq_ok] at h
    obtain ⟨⟨stopped₁, s₁⟩, h₁, h⟩ := h
    have hin := traverse_stop_iff hval hvisit h₁
    split_ifs at h with hs
    · obtain ⟨rfl, -⟩ := Prod.mk.inj (pure_eq_ok.mp h)
      obtain ⟨e, he, edge, hedge, hv, hq⟩ := hin.mp hs
      exact iff_of_true rfl ⟨_, ⟨n, e, edge, hn, hedge, hv, .inl ⟨he, rfl⟩⟩, hq⟩
    · rw [traverse_stop_iff hval hvisit h]
      have hnot : ∀ e ∈ n.inEdges, ∀ edge, g.edges[e]? = some edge → V e → ¬Q edge.src :=
        fun e he edge hedge hv hq => hs (hin.mpr ⟨e, he, edge, hedge, hv, hq⟩)
      constructor
      · rintro ⟨e, he, edge, hedge, hv, hq⟩
        exact ⟨_, ⟨n, e, edge, hn, hedge, hv, .inr ⟨he, rfl⟩⟩, hq⟩
      · rintro ⟨y, ⟨n', e, edge, hn', hedge, hv, hdir⟩, hq⟩
        obtain rfl : n = n' := Option.some_injective _ (hn.symm.trans hn')
        rcases hdir with ⟨he, rfl⟩ | ⟨he, rfl⟩
        · exact absurd hq (hnot e he edge hedge hv)
        · exact ⟨e, he, edge, hedge, hv, hq⟩

end Short

section Search

variable {σ : Type} {g : Graph} {dir : Direction} {op : Graph → Local → σ → Except Fault (DFSStatus × σ)}
  {val : Graph → EdgeIdx → Except Fault DFSStatus} {P : Local → DFSStatus} {V : EdgeIdx → Prop}

theorem searchPath_iff_of_continue {x : Local} (hP : P x = .continue) :
    (∃ z, g.SearchPath dir P V x z) ↔ ∃ y, g.AdjStep V dir x y ∧ ∃ z, g.SearchPath dir P V y z := by
  constructor
  · rintro ⟨z, hz⟩
    cases hz with
    | stop hs => exact absurd (hs.symm.trans hP) (by decide)
    | step _ hadj hrest => exact ⟨_, hadj, _, hrest⟩
  · rintro ⟨y, hadj, z, hz⟩
    exact ⟨z, .step hP hadj hz⟩

-- The short-circuit search (`traverse_all = false`) with a node operator whose status is
-- `P` and a validator admitting `V` returns `Stop` exactly when a `SearchPath` leaves `now`.
theorem dfs_stop_iff (hop : ∀ v s st s', op g v s = .ok (st, s') → st = P v)
    (hval : ∀ e st, val g e = .ok st → (st = .continue ↔ V e)) {fuel : Nat} :
    ∀ {now : Local} {s s' : σ} {st : DFSStatus}, g.dfs dir op val false fuel now s = .ok (st, s') →
      (st = .stop ↔ ∃ z, g.SearchPath dir P V now z) := by
  induction fuel with
  | zero => intro now s s' st h; exact absurd h throw_ne_ok
  | succ fuel ih =>
    intro now s s' st h
    simp only [dfs, bind_eq_ok] at h
    obtain ⟨⟨status, s₁⟩, hst, h⟩ := h
    have hP := hop _ _ _ _ hst
    cases status with
    | stop =>
      obtain ⟨rfl, -⟩ := Prod.mk.inj (pure_eq_ok.mp h)
      exact iff_of_true rfl ⟨now, .stop hP.symm⟩
    | «continue» =>
      simp only [bind_eq_ok, node_eq_ok] at h
      obtain ⟨n, hn, ⟨stopped, s₂⟩, htr, h⟩ := h
      obtain ⟨rfl, -⟩ := Prod.mk.inj (pure_eq_ok.mp h)
      rw [searchPath_iff_of_continue hP.symm,
        ← traverseDirection_stop_iff hval (fun v s st s' h => ih h) hn htr]
      cases stopped <;> simp

-- With a node operator that stops exactly at `t`, a search path is a walk to `t`.
theorem searchPath_target_iff {t : Local} (hP : ∀ v, P v = .stop ↔ v = t) {a : Local} :
    (∃ z, g.SearchPath dir P V a z) ↔ Relation.ReflTransGen (g.AdjStep V dir) a t := by
  constructor
  · rintro ⟨z, h⟩
    induction h with
    | stop hs => exact (hP _).mp hs ▸ .refl
    | step _ hadj _ ih => exact .head hadj ih
  · intro h
    induction h using Relation.ReflTransGen.head_induction_on with
    | refl => exact ⟨t, .stop ((hP t).mpr rfl)⟩
    | @head x y hxy _ ih =>
      obtain ⟨z, hz⟩ := ih
      cases hx : P x with
      | stop => exact ⟨x, .stop hx⟩
      | «continue» => exact ⟨z, .step hx hxy hz⟩

section State

variable {f : DFSStatus → σ}

-- A node operator whose new state is a function `f` of the status it returns, as the
-- `find` cell of `is_connected` is.
theorem traverse_state (hvisit : ∀ v s st s', visit v s = .ok (st, s') → s' = f st)
    {field : GraphEdge → Local} {L : List EdgeIdx} {s s' : σ} {stopped : Bool}
    (hs : s = f .continue) (h : g.traverse val false field visit L s = .ok (stopped, s')) :
    s' = f (if stopped then .stop else .continue) := by
  induction L generalizing s with
  | nil => obtain ⟨rfl, rfl⟩ := Prod.mk.inj (pure_eq_ok.mp h); exact hs
  | cons e rest ih =>
    simp only [traverse, bind_eq_ok] at h
    obtain ⟨edge, -, st, -, h⟩ := h
    cases st with
    | stop => exact ih hs h
    | «continue» =>
      simp only [bind_eq_ok] at h
      obtain ⟨⟨result, s₁⟩, hres, h⟩ := h
      have hs₁ := hvisit _ _ _ _ hres
      cases result with
      | stop =>
        obtain ⟨rfl, rfl⟩ := Prod.mk.inj (pure_eq_ok.mp h)
        exact hs₁
      | «continue» => exact ih hs₁ (by simpa using h)

theorem dfs_state (hop : ∀ v s st s', op g v s = .ok (st, s') → s' = f st) {fuel : Nat} :
    ∀ {now : Local} {s s' : σ} {st : DFSStatus}, g.dfs dir op val false fuel now s = .ok (st, s') →
      s' = f st := by
  induction fuel with
  | zero => intro now s s' st h; exact absurd h throw_ne_ok
  | succ fuel ih =>
    intro now s s' st h
    simp only [dfs, bind_eq_ok] at h
    obtain ⟨⟨status, s₁⟩, hst, h⟩ := h
    have hs₁ := hop _ _ _ _ hst
    cases status with
    | stop => obtain ⟨rfl, rfl⟩ := Prod.mk.inj (pure_eq_ok.mp h); exact hs₁
    | «continue» =>
      simp only [bind_eq_ok] at h
      obtain ⟨n, -, ⟨stopped, s₂⟩, htr, h⟩ := h
      obtain ⟨rfl, rfl⟩ := Prod.mk.inj (pure_eq_ok.mp h)
      have hvisit : ∀ v s st s', g.dfs dir op val false fuel v s = .ok (st, s') → s' = f st :=
        fun _ _ _ _ h => ih h
      cases dir with
      | upside | downside => exact traverse_state hvisit hs₁ htr
      | both =>
        simp only [traverseDirection, bind_eq_ok] at htr
        obtain ⟨⟨stopped₁, s₃⟩, h₁, htr⟩ := htr
        have hs₃ := traverse_state hvisit hs₁ h₁
        cases stopped₁
        · exact traverse_state hvisit hs₃ htr
        · obtain ⟨rfl, rfl⟩ := Prod.mk.inj (pure_eq_ok.mp htr)
          exact hs₃

end State

section Termination

variable {ta : Bool}

theorem traverse_ok (hval_ok : ∀ e edge, g.edges[e]? = some edge → ∃ st, val g e = .ok st)
    (hval : ∀ e st, val g e = .ok st → (st = .continue ↔ V e))
    {field : GraphEdge → Local} {visit : Local → σ → Except Fault (DFSStatus × σ)} {L : List EdgeIdx}
    (hL : ∀ e ∈ L, ∃ edge, g.edges[e]? = some edge ∧ (V e → ∀ s, ∃ r, visit (field edge) s = .ok r))
    (s : σ) : ∃ r, g.traverse val ta field visit L s = .ok r := by
  induction L generalizing s with
  | nil => exact ⟨_, rfl⟩
  | cons e rest ih =>
    have ih := ih fun e he => hL e (List.mem_cons_of_mem _ he)
    obtain ⟨edge, hedge, hvisit⟩ := hL e (List.mem_cons_self _ _)
    obtain ⟨st, hst⟩ := hval_ok e edge hedge
    simp only [traverse, edge_of_getElem? hedge, hst, ok_bind]
    cases st with
    | stop => exact ih s
    | «continue» =>
      obtain ⟨⟨result, s₁⟩, hres⟩ := hvisit ((hval e _ hst).mp rfl) s
      simp only [hres, ok_bind]
      split_ifs
      · exact ⟨_, rfl⟩
      · exact ih s₁

-- The search ends, without a fault, when a measure `μ` drops along every step it can take
-- from the nodes of a set `R` where the operator continues (`P`), those steps do not leave `R`,
-- and the operator and the validator succeed on the graph's nodes and edges.
theorem dfs_ok_of_measure_where (R P : Local → Prop) (μ : Local → Nat)
    (hop : ∀ v s, v < g.nodes.length → ∃ r, op g v s = .ok r)
    (hP : ∀ v s s', op g v s = .ok (.continue, s') → P v)
    (hval_ok : ∀ e edge, g.edges[e]? = some edge → ∃ st, val g e = .ok st)
    (hval : ∀ e st, val g e = .ok st → (st = .continue ↔ V e))
    (hadj : ∀ (v : Local) (n : GraphNode), g.nodes[v]? = some n → ∀ e ∈ n.inEdges ++ n.outEdges,
      ∃ edge : GraphEdge, g.edges[e]? = some edge ∧ edge.src < g.nodes.length ∧
        edge.dst < g.nodes.length)
    (hR : ∀ x y, R x → P x → g.AdjStep V dir x y → R y)
    (hμ : ∀ x y, R x → P x → g.AdjStep V dir x y → μ y < μ x) {fuel : Nat} :
    ∀ {now : Local} (s : σ), R now → now < g.nodes.length → μ now < fuel →
      ∃ r, g.dfs dir op val ta fuel now s = .ok r := by
  induction fuel with
  | zero => intro now s _ _ h; exact absurd h (Nat.not_lt_zero _)
  | succ fuel ih =>
    intro now s hRnow hnow hfuel
    obtain ⟨n, hn⟩ : ∃ n, g.nodes[now]? = some n := ⟨_, List.getElem?_eq_getElem hnow⟩
    obtain ⟨⟨status, s₁⟩, hst⟩ := hop now s hnow
    simp only [dfs, hst, ok_bind]
    cases status with
    | stop => exact ⟨_, rfl⟩
    | «continue» =>
      simp only [node_of_getElem? hn, ok_bind]
      have hPnow := hP _ _ _ hst
      -- a step the search can take leads to an existing node of smaller measure
      have next : ∀ y, g.AdjStep V dir now y → y < g.nodes.length →
          ∀ s, ∃ r, g.dfs dir op val ta fuel y s = .ok r := fun y hy hlt s =>
        ih s (hR _ _ hRnow hPnow hy) hlt
          (Nat.lt_of_lt_of_le (hμ _ _ hRnow hPnow hy) (Nat.le_of_lt_succ hfuel))
      have hin : (∀ e edge y, e ∈ n.inEdges → g.edges[e]? = some edge → V e → edge.src = y →
          g.AdjStep V dir now y) → ∀ e ∈ n.inEdges, ∃ edge, g.edges[e]? = some edge ∧
          (V e → ∀ s, ∃ r, g.dfs dir op val ta fuel edge.src s = .ok r) := by
        intro hstep e he
        obtain ⟨edge, hedge, hsrc, -⟩ := hadj now n hn e (List.mem_append_left _ he)
        exact ⟨edge, hedge, fun hv => next _ (hstep e edge _ he hedge hv rfl) hsrc⟩
      have hout : (∀ e edge y, e ∈ n.outEdges → g.edges[e]? = some edge → V e → edge.dst = y →
          g.AdjStep V dir now y) → ∀ e ∈ n.outEdges, ∃ edge, g.edges[e]? = some edge ∧
          (V e → ∀ s, ∃ r, g.dfs dir op val ta fuel edge.dst s = .ok r) := by
        intro hstep e he
        obtain ⟨edge, hedge, -, hdst⟩ := hadj now n hn e (List.mem_append_right _ he)
        exact ⟨edge, hedge, fun hv => next _ (hstep e edge _ he hedge hv rfl) hdst⟩
      obtain ⟨⟨stopped, s₂⟩, htr⟩ : ∃ r, g.traverseDirection val ta (g.dfs dir op val ta fuel) n dir s₁
          = .ok r := by
        cases dir with
        | upside => exact traverse_ok hval_ok hval (hin fun e edge y he hedge hv hy =>
            ⟨n, e, edge, hn, hedge, hv, he, hy⟩) s₁
        | downside => exact traverse_ok hval_ok hval (hout fun e edge y he hedge hv hy =>
            ⟨n, e, edge, hn, hedge, hv, he, hy⟩) s₁
        | both =>
          obtain ⟨⟨stopped₁, s₃⟩, h₁⟩ : ∃ r, g.traverse val ta (·.src) (g.dfs .both op val ta fuel)
              n.inEdges s₁ = .ok r := traverse_ok hval_ok hval (hin fun e edge y he hedge hv hy =>
            ⟨n, e, edge, hn, hedge, hv, .inl ⟨he, hy⟩⟩) s₁
          simp only [traverseDirection, h₁, ok_bind]
          split_ifs
          · exact ⟨_, rfl⟩
          · exact traverse_ok hval_ok hval (hout fun e edge y he hedge hv hy =>
              ⟨n, e, edge, hn, hedge, hv, .inr ⟨he, hy⟩⟩) s₃
      simp only [htr, ok_bind]
      exact ⟨_, rfl⟩

-- ... and so when the measure drops along every step from the nodes of a set `R` that the steps
-- do not leave.
theorem dfs_ok_of_measure_on (R : Local → Prop) (μ : Local → Nat)
    (hop : ∀ v s, v < g.nodes.length → ∃ r, op g v s = .ok r)
    (hval_ok : ∀ e edge, g.edges[e]? = some edge → ∃ st, val g e = .ok st)
    (hval : ∀ e st, val g e = .ok st → (st = .continue ↔ V e))
    (hadj : ∀ (v : Local) (n : GraphNode), g.nodes[v]? = some n → ∀ e ∈ n.inEdges ++ n.outEdges,
      ∃ edge : GraphEdge, g.edges[e]? = some edge ∧ edge.src < g.nodes.length ∧
        edge.dst < g.nodes.length)
    (hR : ∀ x y, R x → g.AdjStep V dir x y → R y)
    (hμ : ∀ x y, R x → g.AdjStep V dir x y → μ y < μ x) {fuel : Nat} :
    ∀ {now : Local} (s : σ), R now → now < g.nodes.length → μ now < fuel →
      ∃ r, g.dfs dir op val ta fuel now s = .ok r :=
  dfs_ok_of_measure_where R (fun _ => True) μ hop (fun _ _ _ _ => trivial) hval_ok hval hadj
    (fun x y hx _ => hR x y hx) (fun x y hx _ => hμ x y hx)

-- The search ends, without a fault, when a measure `μ` drops along every step it can take
-- and the operator and the validator succeed on the graph's nodes and edges.
theorem dfs_ok_of_measure (μ : Local → Nat)
    (hop : ∀ v s, v < g.nodes.length → ∃ r, op g v s = .ok r)
    (hval_ok : ∀ e edge, g.edges[e]? = some edge → ∃ st, val g e = .ok st)
    (hval : ∀ e st, val g e = .ok st → (st = .continue ↔ V e))
    (hadj : ∀ (v : Local) (n : GraphNode), g.nodes[v]? = some n → ∀ e ∈ n.inEdges ++ n.outEdges,
      ∃ edge : GraphEdge, g.edges[e]? = some edge ∧ edge.src < g.nodes.length ∧
        edge.dst < g.nodes.length)
    (hμ : ∀ x y, g.AdjStep V dir x y → μ y < μ x) {fuel : Nat} :
    ∀ {now : Local} (s : σ), now < g.nodes.length → μ now < fuel →
      ∃ r, g.dfs dir op val ta fuel now s = .ok r := fun s =>
  dfs_ok_of_measure_on (fun _ => True) μ hop hval_ok hval hadj (fun _ _ _ _ => trivial)
    (fun x y _ => hμ x y) s trivial

-- A search that, from every node of `S`, continues and first follows an admitted edge back
-- into `S` never ends: with any fuel it runs out.
theorem dfs_outOfFuel (S : Local → Prop) (hop : ∀ x s, S x → ∃ s', op g x s = .ok (.continue, s'))
    (hnext : ∀ x, S x → ∃ n e rest edge, g.nodes[x]? = some n ∧ g.edges[e]? = some edge ∧
      val g e = .ok .continue ∧
      match dir with
      | .upside | .both => n.inEdges = e :: rest ∧ S edge.src
      | .downside => n.outEdges = e :: rest ∧ S edge.dst) :
    ∀ (fuel : Nat) {x : Local} (s : σ), S x → g.dfs dir op val ta fuel x s = .error .outOfFuel := by
  intro fuel
  induction fuel with
  | zero => intro x s _; rfl
  | succ fuel ih =>
    intro x s hx
    obtain ⟨s₁, hs₁⟩ := hop x s hx
    obtain ⟨n, e, rest, edge, hn, hedge, hv, hdir⟩ := hnext x hx
    simp only [dfs, hs₁, node_of_getElem? hn, ok_bind]
    cases dir with
    | upside | both =>
      simp only [traverseDirection, hdir.1, traverse, edge_of_getElem? hedge, hv, ih _ hdir.2,
        ok_bind, error_bind]
    | downside =>
      simp only [traverseDirection, hdir.1, traverse, edge_of_getElem? hedge, hv, ih _ hdir.2,
        ok_bind, error_bind]

section Potential

variable {Φ : σ → Nat} {b : Nat} (hval_ok : ∀ e edge, g.edges[e]? = some edge → ∃ st, val g e = .ok st)
include hval_ok

-- A loop whose visits, from states of potential at most `b`, succeed without raising the
-- potential succeeds without raising it.
theorem traverse_ok_le {field : GraphEdge → Local} {visit : Local → σ → Except Fault (DFSStatus × σ)}
    {L : List EdgeIdx} (hL : ∀ e ∈ L, ∃ edge, g.edges[e]? = some edge ∧
      ∀ s, Φ s ≤ b → ∃ r, visit (field edge) s = .ok r ∧ Φ r.2 ≤ Φ s)
    (s : σ) (hs : Φ s ≤ b) : ∃ r, g.traverse val ta field visit L s = .ok r ∧ Φ r.2 ≤ Φ s := by
  induction L generalizing s with
  | nil => exact ⟨_, rfl, le_rfl⟩
  | cons e rest ih =>
    have ih := ih fun e he => hL e (List.mem_cons_of_mem _ he)
    obtain ⟨edge, hedge, hvisit⟩ := hL e (List.mem_cons_self _ _)
    obtain ⟨st, hst⟩ := hval_ok e edge hedge
    simp only [traverse, edge_of_getElem? hedge, hst, ok_bind]
    cases st with
    | stop => exact ih s hs
    | «continue» =>
      obtain ⟨⟨result, s₁⟩, hres, hle⟩ := hvisit s hs
      simp only [hres, ok_bind]
      split_ifs
      · exact ⟨_, rfl, hle⟩
      · obtain ⟨r, hr, hle'⟩ := ih s₁ (hle.trans hs)
        exact ⟨r, hr, hle'.trans hle⟩

theorem traverseDirection_ok_le {visit : Local → σ → Except Fault (DFSStatus × σ)} {n : GraphNode}
    (hin : ∀ e ∈ n.inEdges, ∃ edge, g.edges[e]? = some edge ∧
      ∀ s, Φ s ≤ b → ∃ r, visit edge.src s = .ok r ∧ Φ r.2 ≤ Φ s)
    (hout : ∀ e ∈ n.outEdges, ∃ edge, g.edges[e]? = some edge ∧
      ∀ s, Φ s ≤ b → ∃ r, visit edge.dst s = .ok r ∧ Φ r.2 ≤ Φ s) (s : σ) (hs : Φ s ≤ b) :
    ∃ r, g.traverseDirection val ta visit n dir s = .ok r ∧ Φ r.2 ≤ Φ s := by
  cases dir with
  | upside => exact traverse_ok_le hval_ok hin s hs
  | downside => exact traverse_ok_le hval_ok hout s hs
  | both =>
    obtain ⟨⟨stopped, s₁⟩, h₁, hle⟩ : ∃ r, g.traverse val ta (·.src) visit n.inEdges s = .ok r ∧
        Φ r.2 ≤ Φ s := traverse_ok_le hval_ok hin s hs
    simp only [traverseDirection, h₁, ok_bind]
    split_ifs
    · exact ⟨_, rfl, hle⟩
    · obtain ⟨r, hr, hle'⟩ := traverse_ok_le hval_ok hout s₁ (hle.trans hs)
      exact ⟨r, hr, hle'.trans hle⟩

-- The search ends, without a fault, when the operator never raises a potential `Φ` of the state
-- and lowers it wherever it continues: a visited set that only grows bounds the depth.
theorem dfs_ok_of_potential (hop : ∀ v s, v < g.nodes.length → ∃ r, op g v s = .ok r)
    (hΦ : ∀ v s st s', op g v s = .ok (st, s') → Φ s' ≤ Φ s ∧ (st = .continue → Φ s' < Φ s))
    (hadj : ∀ (v : Local) (n : GraphNode), g.nodes[v]? = some n → ∀ e ∈ n.inEdges ++ n.outEdges,
      ∃ edge : GraphEdge, g.edges[e]? = some edge ∧ edge.src < g.nodes.length ∧
        edge.dst < g.nodes.length) {fuel : Nat} :
    ∀ {now : Local} (s : σ), now < g.nodes.length → Φ s < fuel →
      ∃ r, g.dfs dir op val ta fuel now s = .ok r ∧ Φ r.2 ≤ Φ s := by
  induction fuel with
  | zero => intro now s _ h; exact absurd h (Nat.not_lt_zero _)
  | succ fuel ih =>
    intro now s hnow hfuel
    obtain ⟨n, hn⟩ : ∃ n, g.nodes[now]? = some n := ⟨_, List.getElem?_eq_getElem hnow⟩
    obtain ⟨⟨status, s₁⟩, hst⟩ := hop now s hnow
    have hle := hΦ _ _ _ _ hst
    simp only [dfs, hst, ok_bind]
    cases status with
    | stop => exact ⟨_, rfl, hle.1⟩
    | «continue» =>
      simp only [node_of_getElem? hn, ok_bind]
      -- every visit starts from a state below the one the operator left, so below the fuel
      have next : ∀ y < g.nodes.length, ∀ s, Φ s ≤ Φ s₁ →
          ∃ r, g.dfs dir op val ta fuel y s = .ok r ∧ Φ r.2 ≤ Φ s := fun y hy s hs =>
        ih s hy (by have := hle.2 rfl; omega)
      obtain ⟨⟨stopped, s₂⟩, htr, hle'⟩ : ∃ r, g.traverseDirection val ta (g.dfs dir op val ta fuel) n
          dir s₁ = .ok r ∧ Φ r.2 ≤ Φ s₁ := traverseDirection_ok_le (b := Φ s₁) hval_ok
        (fun e he => let ⟨edge, hedge, hsrc, _⟩ := hadj now n hn e (List.mem_append_left _ he)
          ⟨edge, hedge, next _ hsrc⟩)
        (fun e he => let ⟨edge, hedge, _, hdst⟩ := hadj now n hn e (List.mem_append_right _ he)
          ⟨edge, hedge, next _ hdst⟩) s₁ le_rfl
      simp only [htr, ok_bind]
      exact ⟨_, rfl, hle'.trans hle.1⟩

end Potential

end Termination

section Fuel

variable {ta : Bool} {field : GraphEdge → Local}

theorem traverse_congr_ok {visit visit' : Local → σ → Except Fault (DFSStatus × σ)}
    (hv : ∀ v s r, visit v s = .ok r → visit' v s = .ok r) {L : List EdgeIdx} {s : σ}
    {r : Bool × σ} (h : g.traverse val ta field visit L s = .ok r) :
    g.traverse val ta field visit' L s = .ok r := by
  induction L generalizing s with
  | nil => exact h
  | cons e rest ih =>
    simp only [traverse, bind_eq_ok] at h ⊢
    obtain ⟨edge, hedge, st, hst, h⟩ := h
    refine ⟨edge, hedge, st, hst, ?_⟩
    cases st with
    | stop => exact ih h
    | «continue» =>
      simp only [bind_eq_ok] at h ⊢
      obtain ⟨⟨result, s₁⟩, hres, h⟩ := h
      refine ⟨_, hv _ _ _ hres, ?_⟩
      split_ifs at h ⊢
      · exact h
      · exact ih h

-- A search that ends with some fuel ends the same way with more: the fuel only bounds the
-- depth of the recursion.
theorem dfs_fuel_mono {fuel fuel' : Nat} (hle : fuel ≤ fuel') :
    ∀ {now : Local} {s : σ} {r : DFSStatus × σ}, g.dfs dir op val ta fuel now s = .ok r →
      g.dfs dir op val ta fuel' now s = .ok r := by
  induction fuel generalizing fuel' with
  | zero => intro now s r h; exact absurd h throw_ne_ok
  | succ fuel ih =>
    obtain ⟨fuel', rfl⟩ : ∃ f, fuel' = f + 1 := ⟨fuel' - 1, by omega⟩
    intro now s r h
    have hv : ∀ v s r, g.dfs dir op val ta fuel v s = .ok r → g.dfs dir op val ta fuel' v s = .ok r :=
      fun _ _ _ => ih (by omega)
    simp only [dfs, bind_eq_ok] at h ⊢
    obtain ⟨⟨status, s₁⟩, hst, h⟩ := h
    refine ⟨_, hst, ?_⟩
    cases status with
    | stop => exact h
    | «continue» =>
      simp only [bind_eq_ok] at h ⊢
      obtain ⟨n, hn, ⟨stopped, s₂⟩, htr, h⟩ := h
      refine ⟨n, hn, _, ?_, h⟩
      cases dir with
      | upside | downside => exact traverse_congr_ok hv htr
      | both =>
        simp only [traverseDirection, bind_eq_ok] at htr ⊢
        obtain ⟨r₁, h₁, htr⟩ := htr
        exact ⟨r₁, traverse_congr_ok hv h₁, by split_ifs at htr ⊢ <;> first | exact htr | exact traverse_congr_ok hv htr⟩

theorem dfs_fuel_agree {fuel₁ fuel₂ : Nat} {now : Local} {s : σ} {r₁ r₂ : DFSStatus × σ}
    (h₁ : g.dfs dir op val ta fuel₁ now s = .ok r₁) (h₂ : g.dfs dir op val ta fuel₂ now s = .ok r₂) :
    r₁ = r₂ := by
  have := (dfs_fuel_mono (le_max_left fuel₁ fuel₂) h₁).symm.trans
    (dfs_fuel_mono (le_max_right fuel₁ fuel₂) h₂)
  exact Except.ok.inj this

end Fuel

section Invariant

variable {ta : Bool} {I : σ → Prop} {field : GraphEdge → Local}
  {visit : Local → σ → Except Fault (DFSStatus × σ)}
  (hval : ∀ e st, val g e = .ok st → (st = .continue ↔ V e))

include hval in
-- A property of the captured state that every admitted visit keeps holds after the loop.
theorem traverse_preserves {L : List EdgeIdx}
    (hvisit : ∀ e edge s r, e ∈ L → g.edges[e]? = some edge → V e → I s →
      visit (field edge) s = .ok r → I r.2)
    {s : σ} {r : Bool × σ} (hs : I s) (h : g.traverse val ta field visit L s = .ok r) : I r.2 := by
  induction L generalizing s with
  | nil => exact (pure_eq_ok.mp h) ▸ hs
  | cons e rest ih =>
    have hrest := fun e edge s r he => hvisit e edge s r (List.mem_cons_of_mem _ he)
    simp only [traverse, bind_eq_ok, edge_eq_ok] at h
    obtain ⟨edge, hedge, st, hst, h⟩ := h
    cases st with
    | stop => exact ih hrest hs h
    | «continue» =>
      simp only [bind_eq_ok] at h
      obtain ⟨⟨result, s₁⟩, hres, h⟩ := h
      have hs₁ := hvisit e edge s _ (List.mem_cons_self _ _) hedge ((hval e _ hst).mp rfl) hs hres
      split_ifs at h
      · exact (pure_eq_ok.mp h) ▸ hs₁
      · exact ih hrest hs₁ h

include hval in
-- A property of the captured state that the operator keeps at every node the search can
-- reach (`R`, closed under the steps the search takes from a node where it continues)
-- holds after the search.
theorem dfs_preserves (I : σ → Prop) (R : Local → Prop)
    (hop : ∀ v s r, R v → I s → op g v s = .ok r → I r.2)
    (hR : ∀ x y s s', R x → I s → op g x s = .ok (.continue, s') → g.AdjStep V dir x y → R y)
    {fuel : Nat} :
    ∀ {now : Local} {s : σ} {r : DFSStatus × σ}, R now → I s →
      g.dfs dir op val ta fuel now s = .ok r → I r.2 := by
  induction fuel with
  | zero => intro now s r _ _ h; exact absurd h throw_ne_ok
  | succ fuel ih =>
    intro now s r hnow hs h
    simp only [dfs, bind_eq_ok] at h
    obtain ⟨⟨status, s₁⟩, hst, h⟩ := h
    have hs₁ := hop _ _ _ hnow hs hst
    cases status with
    | stop => exact (pure_eq_ok.mp h) ▸ hs₁
    | «continue» =>
      simp only [bind_eq_ok, node_eq_ok] at h
      obtain ⟨n, hn, ⟨stopped, s₂⟩, htr, h⟩ := h
      have hnext : ∀ y, g.AdjStep V dir now y → ∀ s r, I s →
          g.dfs dir op val ta fuel y s = .ok r → I r.2 :=
        fun y hy _ _ hs' h => ih (hR now y s s₁ hnow hs hst hy) hs' h
      suffices I s₂ from (pure_eq_ok.mp h) ▸ this
      cases dir with
      | upside =>
        exact traverse_preserves hval (fun e edge _ _ he hedge hv =>
          hnext _ ⟨n, e, edge, hn, hedge, hv, he, rfl⟩ _ _) hs₁ htr
      | downside =>
        exact traverse_preserves hval (fun e edge _ _ he hedge hv =>
          hnext _ ⟨n, e, edge, hn, hedge, hv, he, rfl⟩ _ _) hs₁ htr
      | both =>
        simp only [traverseDirection, bind_eq_ok] at htr
        obtain ⟨⟨stopped₁, s₃⟩, h₁, htr⟩ := htr
        have hs₃ := traverse_preserves hval (fun e edge _ _ he hedge hv =>
          hnext _ ⟨n, e, edge, hn, hedge, hv, .inl ⟨he, rfl⟩⟩ _ _) hs₁ h₁
        split_ifs at htr
        · obtain ⟨-, rfl⟩ := Prod.mk.inj (pure_eq_ok.mp htr)
          exact hs₃
        · exact traverse_preserves hval (fun e edge _ _ he hedge hv =>
            hnext _ ⟨n, e, edge, hn, hedge, hv, .inr ⟨he, rfl⟩⟩ _ _) hs₃ htr

end Invariant

section Safety

variable {ta : Bool} {field : GraphEdge → Local} {visit : Local → σ → Except Fault (DFSStatus × σ)}

-- The loop fails only where a visit fails, with that visit's fault.
theorem traverse_error (hval_ok : ∀ e edge, g.edges[e]? = some edge → ∃ st, val g e = .ok st)
    {L : List EdgeIdx} (hL : ∀ e ∈ L, ∃ edge, g.edges[e]? = some edge ∧
      ∀ s f, visit (field edge) s = .error f → f = .outOfFuel)
    {s : σ} {f : Fault} (h : g.traverse val ta field visit L s = .error f) : f = .outOfFuel := by
  induction L generalizing s with
  | nil => cases h
  | cons e rest ih =>
    obtain ⟨edge, hedge, hvisit⟩ := hL e (List.mem_cons_self _ _)
    obtain ⟨st, hst⟩ := hval_ok e edge hedge
    have hrest := fun e he => hL e (List.mem_cons_of_mem _ he)
    simp only [traverse, edge_of_getElem? hedge, hst, ok_bind] at h
    cases st with
    | stop => exact ih hrest h
    | «continue» =>
      rcases hv : visit (field edge) s with f' | ⟨result, s₁⟩
      · rw [hv, error_bind] at h
        cases h
        exact hvisit s _ hv
      · rw [hv, ok_bind] at h
        split_ifs at h
        · cases h
        · exact ih hrest h

-- On a graph whose adjacency lists name existing edges between existing nodes, a search
-- whose operator and validator succeed there fails only by running out of fuel.
theorem dfs_error_outOfFuel (hop : ∀ v s, v < g.nodes.length → ∃ r, op g v s = .ok r)
    (hval_ok : ∀ e edge, g.edges[e]? = some edge → ∃ st, val g e = .ok st)
    (hadj : ∀ (v : Local) (n : GraphNode), g.nodes[v]? = some n → ∀ e ∈ n.inEdges ++ n.outEdges,
      ∃ edge : GraphEdge, g.edges[e]? = some edge ∧ edge.src < g.nodes.length ∧
        edge.dst < g.nodes.length) {fuel : Nat} :
    ∀ {now : Local} {s : σ} {f : Fault}, now < g.nodes.length →
      g.dfs dir op val ta fuel now s = .error f → f = .outOfFuel := by
  induction fuel with
  | zero => intro now s f _ h; exact (Except.error.inj h).symm
  | succ fuel ih =>
    intro now s f hnow h
    obtain ⟨n, hn⟩ : ∃ n, g.nodes[now]? = some n := ⟨_, List.getElem?_eq_getElem hnow⟩
    obtain ⟨⟨status, s₁⟩, hst⟩ := hop now s hnow
    simp only [dfs, hst, node_of_getElem? hn, ok_bind] at h
    cases status with
    | stop => cases h
    | «continue» =>
      have hin : ∀ e ∈ n.inEdges, ∃ edge : GraphEdge, g.edges[e]? = some edge ∧
          ∀ s f, g.dfs dir op val ta fuel edge.src s = .error f → f = .outOfFuel := fun e he =>
        let ⟨edge, hedge, hsrc, _⟩ := hadj now n hn e (List.mem_append_left _ he)
        ⟨edge, hedge, fun _ _ => ih hsrc⟩
      have hout : ∀ e ∈ n.outEdges, ∃ edge : GraphEdge, g.edges[e]? = some edge ∧
          ∀ s f, g.dfs dir op val ta fuel edge.dst s = .error f → f = .outOfFuel := fun e he =>
        let ⟨edge, hedge, _, hdst⟩ := hadj now n hn e (List.mem_append_right _ he)
        ⟨edge, hedge, fun _ _ => ih hdst⟩
      rcases htr : g.traverseDirection val ta (g.dfs dir op val ta fuel) n dir s₁ with f' | r
      · rw [htr, error_bind] at h
        cases h
        cases dir with
        | upside => exact traverse_error hval_ok hin htr
        | downside => exact traverse_error hval_ok hout htr
        | both =>
          simp only [traverseDirection] at htr
          rcases h₁ : g.traverse val ta (·.src) (g.dfs .both op val ta fuel) n.inEdges s₁ with
            f'' | ⟨stopped, s₃⟩
          · rw [h₁, error_bind] at htr
            cases htr
            exact traverse_error hval_ok hin h₁
          · rw [h₁, ok_bind] at htr
            split_ifs at htr
            · cases htr
            · exact traverse_error hval_ok hout htr
      · rw [htr, ok_bind] at h
        cases h

end Safety

end Search

end RapxDataflow.Graph
