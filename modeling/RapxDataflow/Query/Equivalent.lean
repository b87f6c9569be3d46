import RapxDataflow.Query.Connected

namespace RapxDataflow.Graph

-- The edge tags `equivalent_edge_validator` lets through: copies, moves and borrows.
def ValuePreserving (op : EdgeOp) : Prop :=
  op = .copy ∨ op = .move ∨ op = .mut ∨ op = .immut

instance : DecidablePred ValuePreserving := fun op =>
  inferInstanceAs (Decidable (op = .copy ∨ op = .move ∨ op = .mut ∨ op = .immut))

def Admitted (g : Graph) (e : EdgeIdx) : Prop :=
  ∃ edge, g.edges[e]? = some edge ∧ ValuePreserving edge.op

-- A node the searches of `collect_equivalent_locals` pass through: tagged `Nop`, `Use` or `Ref`.
def Transparent (g : Graph) (v : Local) : Prop :=
  ∃ n, g.nodes[v]? = some n ∧ n.op.isNopUseRef = true

instance (g : Graph) : DecidablePred g.Transparent := fun v =>
  decidable_of_iff (∃ n ∈ g.nodes[v]?, n.op.isNopUseRef = true) (by simp only [Option.mem_def]; rfl)

-- A step of the upside search from a transparent node, and one of the downside search.
def UpStep (g : Graph) (x y : Local) : Prop :=
  g.Transparent x ∧ g.AdjStep g.Admitted .upside x y

def DownStep (g : Graph) (x y : Local) : Prop :=
  g.Transparent x ∧ g.AdjStep g.Admitted .downside x y

section Operators

variable {g : Graph} {v : Local} {n : GraphNode}

theorem transparent_iff (hn : g.nodes[v]? = some n) : g.Transparent v ↔ n.op.isNopUseRef = true :=
  ⟨fun ⟨_, hn', h⟩ => Option.some_injective _ (hn.symm.trans hn') ▸ h, fun h => ⟨n, hn, h⟩⟩

theorem Transparent.plain (h : g.Transparent v) : g.Plain v := by
  obtain ⟨n, hn, hnur⟩ := h
  refine ⟨n, hn, ?_⟩
  cases hop : n.op <;> simp_all [NodeOp.isNopUseRef, NodeOp.isConst]

theorem equivalentEdgeValidator_admits (e : EdgeIdx) (st : DFSStatus)
    (h : equivalentEdgeValidator g e = .ok st) : st = .continue ↔ g.Admitted e := by
  simp only [equivalentEdgeValidator, bind_eq_ok, edge_eq_ok] at h
  obtain ⟨edge, hedge, h⟩ := h
  have hadm : g.Admitted e ↔ ValuePreserving edge.op :=
    ⟨fun ⟨_, h', hv⟩ => Option.some_injective _ (hedge.symm.trans h') ▸ hv, fun hv => ⟨edge, hedge, hv⟩⟩
  rw [hadm]
  cases hop : edge.op <;> simp only [hop, pure_eq_ok] at h <;> subst h <;> simp [ValuePreserving, hop]

theorem equivalentEdgeValidator_ok (e : EdgeIdx) (edge : GraphEdge) (h : g.edges[e]? = some edge) :
    ∃ st, equivalentEdgeValidator g e = .ok st := by
  simp only [equivalentEdgeValidator, edge_of_getElem? h, ok_bind]
  split <;> exact ⟨_, rfl⟩

-- `find_root_operator` records a transparent node as the root and stops anywhere else.
theorem findRootOperator_spec {root : Local} {r : DFSStatus × Local}
    (h : g.findRootOperator v root = .ok r) :
    v < g.nodes.length ∧ (g.Transparent v ∧ r = (.continue, v) ∨ ¬g.Transparent v ∧ r = (.stop, root)) := by
  simp only [findRootOperator, bind_eq_ok, node_eq_ok] at h
  obtain ⟨n, hn, h⟩ := h
  refine ⟨(List.getElem?_eq_some_iff.mp hn).1, ?_⟩
  rw [transparent_iff hn]
  split_ifs at h with hc
  · exact .inl ⟨hc, (pure_eq_ok.mp h).symm⟩
  · exact .inr ⟨hc, (pure_eq_ok.mp h).symm⟩

theorem findRootOperator_ok (root : Local) (hv : v < g.nodes.length) :
    ∃ r, g.findRootOperator v root = .ok r := by
  simp only [findRootOperator, node_of_lt hv, ok_bind]
  split <;> exact ⟨_, rfl⟩

-- `find_equivalent_operator` stops at a node already in the set, adds a transparent node,
-- and stops anywhere else.
theorem findEquivalentOperator_spec {set : Finset Local} {r : DFSStatus × Finset Local}
    (h : g.findEquivalentOperator v set = .ok r) :
    v < g.nodes.length ∧ (v ∈ set ∧ r = (.stop, set) ∨
      v ∉ set ∧ g.Transparent v ∧ r = (.continue, insert v set) ∨
      v ∉ set ∧ ¬g.Transparent v ∧ r = (.stop, set)) := by
  simp only [findEquivalentOperator, bind_eq_ok, node_eq_ok] at h
  obtain ⟨n, hn, h⟩ := h
  refine ⟨(List.getElem?_eq_some_iff.mp hn).1, ?_⟩
  rw [transparent_iff hn]
  split_ifs at h with hs hc
  · exact .inl ⟨hs, (pure_eq_ok.mp h).symm⟩
  · exact .inr (.inl ⟨hs, hc, (pure_eq_ok.mp h).symm⟩)
  · exact .inr (.inr ⟨hs, hc, (pure_eq_ok.mp h).symm⟩)

theorem findEquivalentOperator_ok (set : Finset Local) (hv : v < g.nodes.length) :
    ∃ r, g.findEquivalentOperator v set = .ok r := by
  simp only [findEquivalentOperator, node_of_lt hv, ok_bind]
  split_ifs <;> exact ⟨_, rfl⟩

end Operators

section Soundness

variable {g : Graph} {fuel : Nat}

-- The root the upside search settles on is reached from the start by steps out of
-- transparent nodes, and is transparent when the start is.
theorem findRoot_sound {v : Local} {r : DFSStatus × Local}
    (h : g.dfs .upside findRootOperator equivalentEdgeValidator true fuel v v = .ok r) :
    Relation.ReflTransGen g.UpStep v r.2 ∧ (g.Transparent v → g.Transparent r.2) := by
  refine dfs_preserves equivalentEdgeValidator_admits (fun root =>
      Relation.ReflTransGen g.UpStep v root ∧ (g.Transparent v → g.Transparent root))
    (Relation.ReflTransGen g.UpStep v) ?_ ?_ .refl ⟨.refl, id⟩ h
  · intro x root r hx hroot hop
    rcases (findRootOperator_spec hop).2 with ⟨hT, rfl⟩ | ⟨-, rfl⟩
    · exact ⟨hx, fun _ => hT⟩
    · exact hroot
  · intro x y root root' hx _ hop hadj
    rcases (findRootOperator_spec hop).2 with ⟨hT, -⟩ | ⟨-, h⟩
    · exact hx.tail ⟨hT, hadj⟩
    · cases h

-- Every node the downside search collects is transparent and reached from where it started.
theorem findEquivalent_sound {root : Local} {r : DFSStatus × Finset Local}
    (h : g.dfs .downside findEquivalentOperator equivalentEdgeValidator true fuel root ∅ = .ok r) :
    ∀ w ∈ r.2, g.Transparent w ∧ Relation.ReflTransGen g.DownStep root w := by
  refine dfs_preserves equivalentEdgeValidator_admits
    (fun set => ∀ w ∈ set, g.Transparent w ∧ Relation.ReflTransGen g.DownStep root w)
    (Relation.ReflTransGen g.DownStep root) ?_ ?_ .refl (fun _ h => absurd h (Finset.not_mem_empty _)) h
  · intro x set r hx hset hop
    rcases (findEquivalentOperator_spec hop).2 with ⟨-, rfl⟩ | ⟨-, hT, rfl⟩ | ⟨-, -, rfl⟩
    · exact hset
    · intro w hw
      rcases Finset.mem_insert.mp hw with rfl | hw
      · exact ⟨hT, hx⟩
      · exact hset w hw
    · exact hset
  · intro x y set set' hx _ hop hadj
    rcases (findEquivalentOperator_spec hop).2 with ⟨-, h⟩ | ⟨-, hT, -⟩ | ⟨-, -, h⟩
    · cases h
    · exact hx.tail ⟨hT, hadj⟩
    · cases h

-- Along a chain of steps that each leave a transparent node, every node is transparent
-- when the last one is.
theorem transparent_of_chain {step : Local → Local → Prop} (hT : ∀ a b, step a b → g.Transparent a)
    {x y : Local} (h : Relation.ReflTransGen step x y) (hy : g.Transparent y) : g.Transparent x := by
  rcases Relation.ReflTransGen.cases_head h with rfl | ⟨c, hc, -⟩
  · exact hy
  · exact hT _ _ hc

end Soundness

section Completeness

variable {g : Graph} {fuel : Nat}

-- What a run of the downside search adds to its set is closed under admitted steps into
-- transparent nodes.
def Closed (g : Graph) (s s' : Finset Local) : Prop :=
  s ⊆ s' ∧ ∀ y ∈ s', y ∉ s → ∀ z, g.AdjStep g.Admitted .downside y z → g.Transparent z → z ∈ s'

theorem Closed.refl (s : Finset Local) : g.Closed s s :=
  ⟨subset_rfl, fun _ h h' => absurd h h'⟩

theorem Closed.trans {s₁ s₂ s₃ : Finset Local} (h₁ : g.Closed s₁ s₂) (h₂ : g.Closed s₂ s₃) :
    g.Closed s₁ s₃ := by
  refine ⟨h₁.1.trans h₂.1, fun y hy hy₁ z hz hT => ?_⟩
  by_cases hy₂ : y ∈ s₂
  · exact h₂.1 (h₁.2 y hy₂ hy₁ z hz hT)
  · exact h₂.2 y hy hy₂ z hz hT

-- The exhaustive loop (`traverse_all = true`) visits every admitted out-edge.
theorem traverse_closed {visit : Local → Finset Local → Except Fault (DFSStatus × Finset Local)}
    (hvisit : ∀ z s r, visit z s = .ok r → g.Closed s r.2 ∧ (g.Transparent z → z ∈ r.2))
    {L : List EdgeIdx} {s : Finset Local} {r : Bool × Finset Local}
    (h : g.traverse equivalentEdgeValidator true (·.dst) visit L s = .ok r) :
    g.Closed s r.2 ∧ ∀ e ∈ L, ∀ edge, g.edges[e]? = some edge → g.Admitted e →
      g.Transparent edge.dst → edge.dst ∈ r.2 := by
  induction L generalizing s with
  | nil =>
    obtain rfl := pure_eq_ok.mp h
    exact ⟨.refl s, fun _ h => absurd h (List.not_mem_nil _)⟩
  | cons e rest ih =>
    simp only [traverse, bind_eq_ok, edge_eq_ok] at h
    obtain ⟨edge, hedge, st, hst, h⟩ := h
    have hadm := equivalentEdgeValidator_admits e st hst
    cases st with
    | stop =>
      obtain ⟨hc, hrest⟩ := ih h
      refine ⟨hc, fun e' he' edge' hedge' hadm' hT => ?_⟩
      rcases List.mem_cons.mp he' with rfl | he'
      · exact absurd (hadm.mpr hadm') (by decide)
      · exact hrest e' he' edge' hedge' hadm' hT
    | «continue» =>
      simp only [bind_eq_ok] at h
      obtain ⟨⟨result, s₁⟩, hres, h⟩ := h
      simp only [Bool.not_true, Bool.false_eq_true, and_false, ↓reduceIte] at h
      obtain ⟨hc₁, hdst⟩ := hvisit _ _ _ hres
      obtain ⟨hc, hrest⟩ := ih h
      refine ⟨hc₁.trans hc, fun e' he' edge' hedge' hadm' hT => ?_⟩
      rcases List.mem_cons.mp he' with rfl | he'
      · obtain rfl : edge = edge' := Option.some_injective _ (hedge.symm.trans hedge')
        exact hc.1 (hdst hT)
      · exact hrest e' he' edge' hedge' hadm' hT

theorem findEquivalent_closed : ∀ {x : Local} {s : Finset Local} {r : DFSStatus × Finset Local},
    g.dfs .downside findEquivalentOperator equivalentEdgeValidator true fuel x s = .ok r →
      g.Closed s r.2 ∧ (g.Transparent x → x ∈ r.2) := by
  induction fuel with
  | zero => intro x s r h; exact absurd h throw_ne_ok
  | succ fuel ih =>
    intro x s r h
    simp only [dfs, bind_eq_ok] at h
    obtain ⟨⟨status, s₁⟩, hop, h⟩ := h
    rcases (findEquivalentOperator_spec hop).2 with ⟨hx, h₁⟩ | ⟨hx, hT, h₁⟩ | ⟨-, hT, h₁⟩
    · obtain ⟨rfl, rfl⟩ := Prod.mk.inj h₁
      obtain rfl := pure_eq_ok.mp h
      exact ⟨.refl _, fun _ => hx⟩
    · obtain ⟨rfl, rfl⟩ := Prod.mk.inj h₁
      simp only [bind_eq_ok, node_eq_ok] at h
      obtain ⟨n, hn, ⟨stopped, s₂⟩, htr, h⟩ := h
      obtain rfl := pure_eq_ok.mp h
      obtain ⟨hc, hdst⟩ := traverse_closed (fun _ _ _ h => ih h) htr
      refine ⟨⟨(Finset.subset_insert x s).trans hc.1, fun y hy hys z hz hTz => ?_⟩,
        fun _ => hc.1 (Finset.mem_insert_self x s)⟩
      by_cases hyx : y = x
      · subst hyx
        obtain ⟨n', e, edge, hn', hedge, hadm, he, rfl⟩ := hz
        obtain rfl : n = n' := Option.some_injective _ (hn.symm.trans hn')
        exact hdst e he edge hedge hadm hTz
      · exact hc.2 y hy (by simp [hyx, hys]) z hz hTz
    · obtain ⟨rfl, rfl⟩ := Prod.mk.inj h₁
      obtain rfl := pure_eq_ok.mp h
      exact ⟨.refl _, fun h => absurd h hT⟩

theorem mem_of_closed {S : Finset Local} (hc : g.Closed ∅ S) {x y : Local} (hx : x ∈ S)
    (h : Relation.ReflTransGen (fun a b => g.AdjStep g.Admitted .downside a b ∧ g.Transparent b) x y) :
    y ∈ S := by
  induction h with
  | refl => exact hx
  | tail _ hstep ih => exact hc.2 _ ih (Finset.not_mem_empty _) _ hstep.1 hstep.2

-- A transparent slot is in its own class: the root's downside search walks back down the
-- chain the upside search climbed.
theorem WellFormed.self_mem_collectEquivalentLocals (hg : g.WellFormed) {v : Local}
    (hv : g.Transparent v) {S : Finset Local} (h : g.collectEquivalentLocals fuel v = .ok S) :
    v ∈ S := by
  simp only [collectEquivalentLocals, bind_eq_ok, pure_eq_ok] at h
  obtain ⟨⟨_, root⟩, h₁, ⟨_, set⟩, h₂, rfl⟩ := h
  obtain ⟨hup, hroot⟩ := findRoot_sound h₁
  obtain ⟨hc, hmem⟩ := findEquivalent_closed h₂
  refine mem_of_closed hc (hmem (hroot hv)) ?_
  -- every climbing step, read downwards, is an admitted step into a transparent node
  have hdown : ∀ x y, Relation.ReflTransGen g.UpStep x y → g.Transparent y →
      Relation.ReflTransGen (fun a b => g.AdjStep g.Admitted .downside a b ∧ g.Transparent b) y x := by
    intro x y hxy hy
    induction hxy using Relation.ReflTransGen.head_induction_on with
    | refl => exact .refl
    | @head a b hab hbc ih =>
      have hb := transparent_of_chain (fun _ _ h => h.1) hbc hy
      obtain ⟨e, edge, hedge, hadm, rfl, rfl⟩ := hg.adjStep_upside_iff.mp hab.2
      exact (ih).tail ⟨hg.adjStep_downside_iff.mpr ⟨⟨e, edge, hedge, hadm, rfl, rfl⟩, hb.plain⟩, hab.1⟩
  exact hdown v root hup (hroot hv)

end Completeness

-- The transparent node `y` feeds `x` by an admitted edge; a top is a node reached by such
-- links that no transparent node feeds.
def Parent (g : Graph) (x y : Local) : Prop :=
  g.AdjStep g.Admitted .upside x y ∧ g.Transparent y

def IsTop (g : Graph) (x r : Local) : Prop :=
  Relation.ReflTransGen g.Parent x r ∧ ∀ z, ¬g.Parent r z

section Top

variable {g : Graph} {fuel : Nat}

-- From a node that is not transparent the upside search returns at once, root unchanged.
theorem findRoot_opaque {y root : Local} {r : DFSStatus × Local} (hy : ¬g.Transparent y)
    (h : g.dfs .upside findRootOperator equivalentEdgeValidator true fuel y root = .ok r) :
    r.2 = root := by
  cases fuel with
  | zero => exact absurd h throw_ne_ok
  | succ fuel =>
    simp only [dfs, bind_eq_ok] at h
    obtain ⟨⟨status, s₁⟩, hop, h⟩ := h
    rcases (findRootOperator_spec hop).2 with ⟨hT, -⟩ | ⟨-, h₁⟩
    · exact absurd hT hy
    · obtain ⟨rfl, rfl⟩ := Prod.mk.inj h₁
      obtain rfl := pure_eq_ok.mp h
      rfl

-- The exhaustive loop over `x`'s in-edges ends on a top of `x` once it has met a
-- transparent feeder, or if it started on one.
theorem traverse_top {x : Local} {n : GraphNode} (hn : g.nodes[x]? = some n)
    {visit : Local → Local → Except Fault (DFSStatus × Local)}
    (htop : ∀ y s r, g.Transparent y → visit y s = .ok r → g.IsTop y r.2)
    (hkeep : ∀ y s r, ¬g.Transparent y → visit y s = .ok r → r.2 = s)
    {L : List EdgeIdx} (hL : ∀ e ∈ L, e ∈ n.inEdges) {s : Local} {r : Bool × Local}
    (hs : s = x ∨ g.IsTop x s) (h : g.traverse equivalentEdgeValidator true (·.src) visit L s = .ok r) :
    (r.2 = x ∨ g.IsTop x r.2) ∧ ((g.IsTop x s ∨ ∃ e ∈ L, ∃ edge, g.edges[e]? = some edge ∧
      g.Admitted e ∧ g.Transparent edge.src) → g.IsTop x r.2) := by
  induction L generalizing s with
  | nil =>
    obtain rfl := pure_eq_ok.mp h
    exact ⟨hs, fun h => h.resolve_right fun ⟨_, he, _⟩ => List.not_mem_nil _ he⟩
  | cons e rest ih =>
    have hrest := fun e he => hL e (List.mem_cons_of_mem _ he)
    simp only [traverse, bind_eq_ok, edge_eq_ok] at h
    obtain ⟨edge, hedge, st, hst, h⟩ := h
    have hadm := equivalentEdgeValidator_admits e st hst
    cases st with
    | stop =>
      obtain ⟨h₁, h₂⟩ := ih hrest hs h
      refine ⟨h₁, fun hq => h₂ (hq.imp id fun ⟨e', he', edge', hedge', hadm', hT⟩ => ?_)⟩
      rcases List.mem_cons.mp he' with rfl | he'
      · exact absurd (hadm.mpr hadm') (by decide)
      · exact ⟨e', he', edge', hedge', hadm', hT⟩
    | «continue» =>
      simp only [bind_eq_ok] at h
      obtain ⟨⟨result, s₁⟩, hres, h⟩ := h
      simp only [Bool.not_true, Bool.false_eq_true, and_false, ↓reduceIte] at h
      -- after the visit the root is a top of `x` if the edge's source is transparent, and is
      -- unchanged otherwise
      have hvis : (g.Transparent edge.src → g.IsTop x s₁) ∧ (¬g.Transparent edge.src → s₁ = s) :=
        ⟨fun hT => let ht := htop _ _ _ hT hres
          ⟨.head ⟨⟨n, e, edge, hn, hedge, hadm.mp rfl, hL e (List.mem_cons_self _ _), rfl⟩, hT⟩ ht.1, ht.2⟩,
          fun hT => hkeep _ _ _ hT hres⟩
      have hs₁ : s₁ = x ∨ g.IsTop x s₁ := by
        by_cases hT : g.Transparent edge.src
        · exact .inr (hvis.1 hT)
        · exact hvis.2 hT ▸ hs
      obtain ⟨h₁, h₂⟩ := ih hrest hs₁ h
      refine ⟨h₁, fun hq => h₂ ?_⟩
      rcases hq with htop' | ⟨e', he', edge', hedge', hadm', hT⟩
      · by_cases hT : g.Transparent edge.src
        · exact .inl (hvis.1 hT)
        · exact .inl (hvis.2 hT ▸ htop')
      · rcases List.mem_cons.mp he' with rfl | he'
        · obtain rfl : edge = edge' := Option.some_injective _ (hedge.symm.trans hedge')
          exact .inl (hvis.1 hT)
        · exact .inr ⟨e', he', edge', hedge', hadm', hT⟩

-- From a transparent node the upside search settles on a top of it.
theorem findRoot_top : ∀ {x s : Local} {r : DFSStatus × Local}, g.Transparent x →
    g.dfs .upside findRootOperator equivalentEdgeValidator true fuel x s = .ok r → g.IsTop x r.2 := by
  induction fuel with
  | zero => intro x s r _ h; exact absurd h throw_ne_ok
  | succ fuel ih =>
    intro x s r hx h
    simp only [dfs, bind_eq_ok] at h
    obtain ⟨⟨status, s₁⟩, hop, h⟩ := h
    obtain ⟨-, h₁⟩ | ⟨hT, -⟩ := (findRootOperator_spec hop).2
    · obtain ⟨rfl, rfl⟩ := Prod.mk.inj h₁.symm
      simp only [bind_eq_ok, node_eq_ok] at h
      obtain ⟨n, hn, ⟨stopped, s₂⟩, htr, h⟩ := h
      obtain rfl := pure_eq_ok.mp h
      obtain ⟨-, hq⟩ := traverse_top hn (fun _ _ _ hy h => ih hy h) (fun _ _ _ hy h => findRoot_opaque hy h)
        (fun _ he => he) (.inl rfl) htr
      by_cases hp : ∃ z, g.Parent x z
      · obtain ⟨z, ⟨n', e, edge, hn', hedge, hadm, he, rfl⟩, hz⟩ := hp
        obtain rfl : n = n' := Option.some_injective _ (hn.symm.trans hn')
        exact hq (.inr ⟨e, he, edge, hedge, hadm, hz⟩)
      · exact hq (.inl ⟨.refl, fun z hz => hp ⟨z, hz⟩⟩)
    · exact absurd hx hT

-- When no transparent node has two transparent feeders, a transparent node has one top: its
-- chains of feeders run through transparent nodes only, and so are one chain.
theorem IsTop.unique (hsp : ∀ x y z, g.Transparent x → g.Parent x y → g.Parent x z → y = z)
    {x r₁ r₂ : Local} (hx : g.Transparent x) (h₁ : g.IsTop x r₁) (h₂ : g.IsTop x r₂) : r₁ = r₂ := by
  have hR : ∀ a b, g.Transparent a → g.Parent a b → g.Transparent b := fun _ _ _ h => h.2
  -- a chain of feeders cannot go on from a top
  have hend : ∀ {r r'}, g.IsTop x r →
      Relation.ReflTransGen (fun a b => g.Transparent a ∧ g.Parent a b) r r' → r = r' :=
    fun hr h => h.cases_head.resolve_right fun ⟨c, hc, _⟩ => hr.2 c hc.2
  rcases Relation.ReflTransGen.total_of_right_unique (fun ⦃a b c⦄ hb hc => hsp a b c hb.1 hb.2 hc.2)
    (reflTransGen_within hR hx h₁.1).1 (reflTransGen_within hR hx h₂.1).1 with h | h
  exacts [hend h₁ h, (hend h₂ h).symm]

end Top

-- Two transparent nodes joined by a value-preserving edge of the table, either way round.
def EquivStep (g : Graph) (x y : Local) : Prop :=
  g.Transparent x ∧ g.Transparent y ∧ ∃ edge ∈ g.edges, ValuePreserving edge.op ∧
    (edge.src = x ∧ edge.dst = y ∨ edge.src = y ∧ edge.dst = x)

-- No transparent node takes value-preserving edges from two different transparent nodes.
def SingleSourced (g : Graph) : Prop :=
  ∀ a ∈ g.edges, ∀ b ∈ g.edges, ValuePreserving a.op → ValuePreserving b.op → a.dst = b.dst →
    g.Transparent a.dst → g.Transparent a.src → g.Transparent b.src → a.src = b.src

instance (g : Graph) : Decidable g.SingleSourced :=
  decidable_of_iff (∀ a ∈ g.edges, ∀ b ∈ g.edges, ¬(ValuePreserving a.op ∧ ValuePreserving b.op ∧
      a.dst = b.dst ∧ g.Transparent a.dst ∧ g.Transparent a.src ∧ g.Transparent b.src) ∨ a.src = b.src)
    (by simp only [SingleSourced, ← imp_iff_not_or, and_imp])

section Table

variable {g : Graph} {x y : Local} {fuel : Nat}

theorem admitted_iff {e : EdgeIdx} {edge : GraphEdge} (hedge : g.edges[e]? = some edge) :
    g.Admitted e ↔ ValuePreserving edge.op :=
  ⟨fun ⟨_, h, hv⟩ => Option.some_injective _ (hedge.symm.trans h) ▸ hv, fun hv => ⟨edge, hedge, hv⟩⟩

-- The steps of both searches, read in the edge table.
theorem WellFormed.admitted_upside (hg : g.WellFormed) (h : g.AdjStep g.Admitted .upside x y) :
    ∃ edge ∈ g.edges, ValuePreserving edge.op ∧ edge.src = y ∧ edge.dst = x := by
  obtain ⟨e, edge, hedge, hadm, hsrc, hdst⟩ := hg.adjStep_upside_iff.mp h
  exact ⟨edge, List.getElem?_mem hedge, (admitted_iff hedge).mp hadm, hsrc, hdst⟩

theorem WellFormed.admitted_downside (hg : g.WellFormed) (h : g.AdjStep g.Admitted .downside x y) :
    ∃ edge ∈ g.edges, ValuePreserving edge.op ∧ edge.src = x ∧ edge.dst = y := by
  obtain ⟨⟨e, edge, hedge, hadm, hsrc, hdst⟩, -⟩ := hg.adjStep_downside_iff.mp h
  exact ⟨edge, List.getElem?_mem hedge, (admitted_iff hedge).mp hadm, hsrc, hdst⟩

theorem WellFormed.parent_unique (hg : g.WellFormed) (hs : g.SingleSourced) :
    ∀ x y z, g.Transparent x → g.Parent x y → g.Parent x z → y = z := by
  rintro x y z hx ⟨hy, hTy⟩ ⟨hz, hTz⟩
  obtain ⟨a, ha, hva, rfl, rfl⟩ := hg.admitted_upside hy
  obtain ⟨b, hb, hvb, rfl, hdst⟩ := hg.admitted_upside hz
  exact hs a ha b hb hva hvb hdst.symm hx hTy hTz

-- A chain of steps out of transparent nodes ending at a transparent node is a chain of
-- value-preserving edges between transparent nodes.
theorem equivStep_chain {step : Local → Local → Prop} (hT : ∀ a b, step a b → g.Transparent a)
    (hstep : ∀ a b, step a b → g.Transparent b → g.EquivStep a b)
    (h : Relation.ReflTransGen step x y) (hy : g.Transparent y) :
    Relation.ReflTransGen g.EquivStep x y := by
  induction h using Relation.ReflTransGen.head_induction_on with
  | refl => exact .refl
  | @head a b hab hby ih => exact .head (hstep a b hab (transparent_of_chain hT hby hy)) ih

-- Every node in the class of `v` is transparent and tied to `v` by value-preserving edges
-- through transparent nodes.
theorem WellFormed.collectEquivalentLocals_sound (hg : g.WellFormed) {v : Local} {S : Finset Local}
    (h : g.collectEquivalentLocals fuel v = .ok S) {w : Local} (hw : w ∈ S) :
    g.Transparent w ∧ Relation.ReflTransGen g.EquivStep v w := by
  simp only [collectEquivalentLocals, bind_eq_ok, pure_eq_ok] at h
  obtain ⟨⟨_, root⟩, h₁, ⟨_, set⟩, h₂, rfl⟩ := h
  obtain ⟨hup, -⟩ := findRoot_sound h₁
  obtain ⟨hTw, hdown⟩ := findEquivalent_sound h₂ w hw
  have hroot := transparent_of_chain (fun _ _ h => h.1) hdown hTw
  refine ⟨hTw, (equivStep_chain (fun _ _ h => h.1) (fun a b hab hb => ?_) hup hroot).trans
    (equivStep_chain (fun _ _ h => h.1) (fun a b hab hb => ?_) hdown hTw)⟩
  · obtain ⟨edge, hmem, hvp, hsrc, hdst⟩ := hg.admitted_upside hab.2
    exact ⟨hab.1, hb, edge, hmem, hvp, .inr ⟨hsrc, hdst⟩⟩
  · obtain ⟨edge, hmem, hvp, hsrc, hdst⟩ := hg.admitted_downside hab.2
    exact ⟨hab.1, hb, edge, hmem, hvp, .inl ⟨hsrc, hdst⟩⟩

-- With single sources, every member of a class has the same root, so the same class.
theorem WellFormed.collectEquivalentLocals_eq (hg : g.WellFormed) (hs : g.SingleSourced)
    {v w : Local} (hv : g.Transparent v) {fuel' : Nat} {S S' : Finset Local}
    (h : g.collectEquivalentLocals fuel v = .ok S) (hw : w ∈ S)
    (h' : g.collectEquivalentLocals fuel' w = .ok S') : S' = S := by
  simp only [collectEquivalentLocals, bind_eq_ok, pure_eq_ok] at h h'
  obtain ⟨⟨_, root⟩, h₁, ⟨_, set⟩, h₂, rfl⟩ := h
  obtain ⟨⟨_, root'⟩, h₁', ⟨_, set'⟩, h₂', rfl⟩ := h'
  have htop := findRoot_top hv h₁
  obtain ⟨hTw, hdown⟩ := findEquivalent_sound h₂ w hw
  -- the downside chain from the root to `w`, read upwards, is a chain of feeders
  have hchain : Relation.ReflTransGen g.Parent w root := by
    refine Relation.reflTransGen_swap.mp (hdown.mono fun a b hab => ?_)
    obtain ⟨edge, hmem, hvp, rfl, rfl⟩ := hg.admitted_downside hab.2
    obtain ⟨e, he⟩ := List.mem_iff_getElem?.mp hmem
    exact ⟨hg.adjStep_upside_iff.mpr ⟨e, edge, he, (admitted_iff he).mpr hvp, rfl, rfl⟩, hab.1⟩
  obtain rfl : root' = root :=
    IsTop.unique (hg.parent_unique hs) hTw (findRoot_top hTw h₁') ⟨hchain, htop.2⟩
  exact congrArg Prod.snd (dfs_fuel_agree h₂' h₂)

theorem findRoot_lt {v : Local} {r : DFSStatus × Local} (hv : v < g.nodes.length)
    (h : g.dfs .upside findRootOperator equivalentEdgeValidator true fuel v v = .ok r) :
    r.2 < g.nodes.length := by
  refine dfs_preserves equivalentEdgeValidator_admits (· < g.nodes.length) (fun _ => True)
    (fun x root r _ hroot hop => ?_) (fun _ _ _ _ _ _ _ _ => trivial) trivial hv h
  obtain ⟨hx, ⟨-, rfl⟩ | ⟨-, rfl⟩⟩ := findRootOperator_spec hop
  · exact hx
  · exact hroot

-- When every value-preserving edge climbs a rank below `fuel`, both searches end.
theorem WellFormed.collectEquivalentLocals_ok (hg : g.WellFormed) (rank : Local → Nat)
    (hrank : ∀ edge ∈ g.edges, ValuePreserving edge.op → rank edge.src < rank edge.dst)
    (hfuel : ∀ v < g.nodes.length, rank v < fuel) {v : Local} (hv : v < g.nodes.length) :
    ∃ S, g.collectEquivalentLocals fuel v = .ok S := by
  have hup : ∀ x y, g.AdjStep g.Admitted .upside x y → rank y < rank x := by
    intro x y hxy
    obtain ⟨edge, hmem, hvp, rfl, rfl⟩ := hg.admitted_upside hxy
    exact hrank edge hmem hvp
  have hdown : ∀ x y, g.AdjStep g.Admitted .downside x y → fuel - 1 - rank y < fuel - 1 - rank x := by
    intro x y hxy
    obtain ⟨edge, hmem, hvp, rfl, rfl⟩ := hg.admitted_downside hxy
    have := hfuel _ (hg.dst_lt hmem)
    have := hrank edge hmem hvp
    omega
  obtain ⟨⟨_, root⟩, h₁⟩ : ∃ r, g.dfs .upside findRootOperator equivalentEdgeValidator true fuel v v
      = .ok r := dfs_ok_of_measure rank (fun _ s hv => findRootOperator_ok s hv)
    equivalentEdgeValidator_ok equivalentEdgeValidator_admits hg.adjacent_lt hup v hv (hfuel v hv)
  have hroot : root < g.nodes.length := findRoot_lt hv h₁
  obtain ⟨⟨_, S⟩, h₂⟩ : ∃ r, g.dfs .downside findEquivalentOperator equivalentEdgeValidator true fuel
      root ∅ = .ok r := dfs_ok_of_measure (fun v => fuel - 1 - rank v)
    (fun _ s hv => findEquivalentOperator_ok s hv) equivalentEdgeValidator_ok
    equivalentEdgeValidator_admits hg.adjacent_lt hdown ∅ hroot (by have := hfuel _ hroot; dsimp only; omega)
  exact ⟨S, by simp only [collectEquivalentLocals, h₁, h₂, ok_bind]; rfl⟩

end Table

section Builder

variable {instrs : List Instr} {defId : DefId} {span : Span} {argc n : Nat} {g : Graph}

theorem collectEquivalentLocals_terminates_of_rank (hi : ∀ instr ∈ instrs, instr.localsBelow n)
    (hg : (Graph.new defId span argc n).translate instrs = .ok g) (rank : Local → Nat)
    (hrank : ∀ edge ∈ g.edges, ValuePreserving edge.op → rank edge.src < rank edge.dst)
    {fuel : Nat} (hfuel : ∀ v < g.nodes.length, rank v < fuel) :
    ∀ v < n, ∃ S, g.collectEquivalentLocals fuel v = .ok S := by
  obtain ⟨hwf, -, hn⟩ := wellFormed_translate_new hi hg
  exact fun v hv => hwf.collectEquivalentLocals_ok rank hrank hfuel (hwf.locals_plain v (hn ▸ hv)).lt

theorem collectEquivalentLocals_terminates_addParams :
    (∀ instr ∈ addParams, instr.localsBelow 3) ∧
    (Graph.new ⟨0, 0⟩ dummySp 2 3).translate addParams = .ok addGraph ∧
    (∀ edge ∈ addGraph.edges, ValuePreserving edge.op →
      (if edge.src = 0 then 1 else 0) < if edge.dst = 0 then 1 else 0) ∧
    (∀ v < addGraph.nodes.length, (if v = 0 then 1 else 0) < 2) ∧
    ∀ v < 3, ∃ S, addGraph.collectEquivalentLocals 2 v = .ok S :=
  ⟨by decide, rfl, by decide, by decide,
    collectEquivalentLocals_terminates_of_rank (by decide)
      (show (Graph.new ⟨0, 0⟩ dummySp 2 3).translate addParams = .ok addGraph from rfl)
      (fun v => if v = 0 then 1 else 0) (by decide) (by decide)⟩

-- The upside search from slot 1 climbs the copy cycle 1 ← 2 ← 3 ← 1 for as long as it has fuel.
theorem collectEquivalentLocals_swap_diverges :
    (Graph.new ⟨0, 0⟩ dummySp 2 4).translate swapThroughTemp = .ok swapGraph ∧
    ∀ fuel, swapGraph.collectEquivalentLocals fuel 1 = .error .outOfFuel := by
  refine ⟨rfl, fun fuel => ?_⟩
  unfold collectEquivalentLocals
  rw [dfs_outOfFuel (fun x => x = 1 ∨ x = 2 ∨ x = 3) ?_ ?_ fuel 1 (.inl rfl)]
  · rfl
  · rintro x s (rfl | rfl | rfl) <;> exact ⟨_, rfl⟩
  · rintro x (rfl | rfl | rfl)
    · exact ⟨_, 1, [], _, rfl, rfl, rfl, rfl, by decide⟩
    · exact ⟨_, 2, [], _, rfl, rfl, rfl, rfl, by decide⟩
    · exact ⟨_, 0, [], _, rfl, rfl, rfl, rfl, by decide⟩

-- On every built graph a transparent slot belongs to its own class, and when no transparent node
-- takes value-preserving edges from two transparent nodes, every member of a class has that class.
theorem collectEquivalentLocals_partition (hi : ∀ instr ∈ instrs, instr.localsBelow n)
    (hg : (Graph.new defId span argc n).translate instrs = .ok g) :
    (∀ v fuel S, g.Transparent v → g.collectEquivalentLocals fuel v = .ok S → v ∈ S) ∧
    (g.SingleSourced → ∀ v w fuel fuel' S S', g.Transparent v →
      g.collectEquivalentLocals fuel v = .ok S → w ∈ S →
      g.collectEquivalentLocals fuel' w = .ok S' → S' = S) := by
  obtain ⟨hwf, -⟩ := wellFormed_translate_new hi hg
  exact ⟨fun v fuel S hv h => hwf.self_mem_collectEquivalentLocals hv h,
    fun hs v w fuel fuel' S S' hv h hw h' => hwf.collectEquivalentLocals_eq hs hv h hw h'⟩

-- `_2 = copy _1; _3 = move _2`: a chain of plain copies out of the parameter.
def copyChain : List Instr :=
  [.statement ⟨.assign ⟨2, []⟩ (.use (.copy ⟨1, []⟩)), dummySp⟩,
   .statement ⟨.assign ⟨3, []⟩ (.use (.move ⟨2, []⟩)), dummySp⟩]

def copyChainGraph : Graph where
  defId := ⟨0, 0⟩
  span := dummySp
  argc := 1
  nodes := [GraphNode.new, ⟨.nop, dummySp, 0, [0], []⟩, ⟨.use, dummySp, 1, [1], [0]⟩,
    ⟨.use, dummySp, 1, [], [1]⟩]
  edges := [⟨1, 2, .copy, 0⟩, ⟨2, 3, .move, 0⟩]
  nLocals := 4

-- The chain is single-sourced, and the class of its end is the whole chain, so the class of
-- each of its slots.
theorem collectEquivalentLocals_partition_copyChain :
    (∀ instr ∈ copyChain, instr.localsBelow 4) ∧
    (Graph.new ⟨0, 0⟩ dummySp 1 4).translate copyChain = .ok copyChainGraph ∧
    copyChainGraph.SingleSourced ∧ copyChainGraph.collectEquivalentLocals 4 3 = .ok {3, 2, 1} ∧
    (∀ v fuel S, copyChainGraph.Transparent v → copyChainGraph.collectEquivalentLocals fuel v = .ok S →
      v ∈ S) ∧
    (copyChainGraph.SingleSourced → ∀ v w fuel fuel' S S', copyChainGraph.Transparent v →
      copyChainGraph.collectEquivalentLocals fuel v = .ok S → w ∈ S →
      copyChainGraph.collectEquivalentLocals fuel' w = .ok S' → S' = S) :=
  ⟨by decide, rfl, by decide, rfl, collectEquivalentLocals_partition (by decide)
    (show (Graph.new ⟨0, 0⟩ dummySp 1 4).translate copyChain = .ok copyChainGraph from rfl)⟩

-- `_0 = copy _1; _0 = copy _2`: slot 0 takes copies from two parameters.
def twoSources : List Instr :=
  [.statement ⟨.assign ⟨0, []⟩ (.use (.copy ⟨1, []⟩)), dummySp⟩,
   .statement ⟨.assign ⟨0, []⟩ (.use (.copy ⟨2, []⟩)), dummySp⟩]

def twoSourcesGraph : Graph where
  defId := ⟨0, 0⟩
  span := dummySp
  argc := 2
  nodes := [⟨.use, dummySp, 2, [], [0, 1]⟩, ⟨.nop, dummySp, 0, [0], []⟩, ⟨.nop, dummySp, 0, [1], []⟩]
  edges := [⟨1, 0, .copy, 0⟩, ⟨2, 0, .copy, 1⟩]
  nLocals := 3

-- Slot 0 is in the class of slot 1, but its own search climbs to slot 2, the last feeder it
-- visits, and collects another class.
theorem collectEquivalentLocals_twoSources :
    (Graph.new ⟨0, 0⟩ dummySp 2 3).translate twoSources = .ok twoSourcesGraph ∧
    twoSourcesGraph.collectEquivalentLocals 3 1 = .ok {0, 1} ∧
    twoSourcesGraph.collectEquivalentLocals 3 0 = .ok {0, 2} :=
  ⟨rfl, rfl, rfl⟩

-- On every built graph, each member of a class is transparent and tied to the queried slot
-- by value-preserving edges through transparent nodes.
theorem collectEquivalentLocals_chain (hi : ∀ instr ∈ instrs, instr.localsBelow n)
    (hg : (Graph.new defId span argc n).translate instrs = .ok g) {v : Local} {fuel : Nat}
    {S : Finset Local} (h : g.collectEquivalentLocals fuel v = .ok S) :
    ∀ w ∈ S, g.Transparent w ∧ Relation.ReflTransGen g.EquivStep v w :=
  fun _ hw => (wellFormed_translate_new hi hg).1.collectEquivalentLocals_sound h hw

-- `_0 = Add(copy _1, copy _2); _0 = copy _3`: slot 0 is rewritten by a plain copy after a sum.
def addThenCopy : List Instr :=
  [.statement ⟨.assign ⟨0, []⟩ (.binaryOp .add (.copy ⟨1, []⟩) (.copy ⟨2, []⟩)), dummySp⟩,
   .statement ⟨.assign ⟨0, []⟩ (.use (.copy ⟨3, []⟩)), dummySp⟩]

def addThenCopyGraph : Graph where
  defId := ⟨0, 0⟩
  span := dummySp
  argc := 3
  nodes := [⟨.use, dummySp, 2, [], [0, 1, 2]⟩, ⟨.nop, dummySp, 0, [0], []⟩,
    ⟨.nop, dummySp, 0, [1], []⟩, ⟨.nop, dummySp, 0, [2], []⟩]
  edges := [⟨1, 0, .copy, 0⟩, ⟨2, 0, .copy, 0⟩, ⟨3, 0, .copy, 1⟩]
  nLocals := 4

-- Slot 0 lands in the class of slot 1 through edge 0, the only edge at slot 1, which the
-- `Add` created: the tag `Use` that lets the search through is the one of the later copy.
theorem collectEquivalentLocals_addThenCopy :
    (Graph.new ⟨0, 0⟩ dummySp 3 4).translate addThenCopy = .ok addThenCopyGraph ∧
    ((Graph.new ⟨0, 0⟩ dummySp 3 4).translate (addThenCopy.take 1)).map (·.edges) =
      .ok [⟨1, 0, .copy, 0⟩, ⟨2, 0, .copy, 0⟩] ∧
    addThenCopyGraph.edges.filter (fun edge => edge.src = 1 ∨ edge.dst = 1) = [⟨1, 0, .copy, 0⟩] ∧
    addThenCopyGraph.collectEquivalentLocals 3 1 = .ok {0, 1} :=
  ⟨rfl, rfl, rfl, rfl⟩

theorem collectEquivalentLocals_chain_addThenCopy :
    (∀ instr ∈ addThenCopy, instr.localsBelow 4) ∧
    (Graph.new ⟨0, 0⟩ dummySp 3 4).translate addThenCopy = .ok addThenCopyGraph ∧
    addThenCopyGraph.collectEquivalentLocals 3 1 = .ok {0, 1} ∧
    ∀ w ∈ ({0, 1} : Finset Local), addThenCopyGraph.Transparent w ∧
      Relation.ReflTransGen addThenCopyGraph.EquivStep 1 w :=
  ⟨by decide, rfl, rfl, collectEquivalentLocals_chain (by decide)
    (show (Graph.new ⟨0, 0⟩ dummySp 3 4).translate addThenCopy = .ok addThenCopyGraph from rfl)
    (show addThenCopyGraph.collectEquivalentLocals 3 1 = .ok {0, 1} from rfl)⟩

end Builder

end RapxDataflow.Graph
