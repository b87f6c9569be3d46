import RapxDataflow.Graph.Place
import RapxDataflow.Graph.Seq

namespace RapxDataflow

-- The dataflow a MIR instruction states, read off its syntax the way the builder reads it: the
-- locals a place, an operand or an rvalue reads, and the flows from them into the local an
-- instruction writes, when it writes a whole local and not a projection of one.

def PlaceElem.indexLocal : PlaceElem → Option Local
  | .index idx => some idx
  | _ => none

def Place.reads (place : Place) : List Local :=
  place.local :: place.projection.filterMap PlaceElem.indexLocal

def Operand.reads : Operand → List Local
  | .copy place | .move place => place.reads
  | .constant _ => []

-- `ThreadLocalRef` and `RawPtr` read nothing the builder records: it panics on them.
def Rvalue.reads : Rvalue → List Local
  | .use operand | .repeat operand | .cast operand | .unaryOp operand
  | .shallowInitBox operand => operand.reads
  | .ref _ place | .len place | .discriminant place | .copyForDeref place => place.reads
  | .binaryOp _ lhs rhs => lhs.reads ++ rhs.reads
  | .aggregate _ operands => operands.flatMap Operand.reads
  | .nullaryOp _ | .threadLocalRef _ | .rawPtr _ => []

-- What a call feeds its destination: the arguments of a call to a known function, and the callee
-- too of a call through a moved operand; nothing for another constant callee, and nothing for a
-- copied one, on which the builder panics.
def Operand.callReads (func : Operand) (args : List Operand) : List Local :=
  match func with
  | .constant (.val ty _) =>
    match ty.kind with
    | .fnDef _ => args.flatMap Operand.reads
    | .other => []
  | .constant _ | .copy _ => []
  | .move _ => func.reads ++ args.flatMap Operand.reads

def Instr.flows : Instr → List (Local × Local)
  | .statement ⟨.assign place rvalue, _⟩ =>
    if place.projection = [] then rvalue.reads.map (·, place.local) else []
  | .terminator ⟨.call func args destination, _⟩ => (func.callReads args).map (·, destination.local)
  | _ => []

-- `a` flows into `b` in one instruction of `instrs`.
def Flow (instrs : List Instr) (a b : Local) : Prop :=
  ∃ instr ∈ instrs, (a, b) ∈ instr.flows

instance (instrs : List Instr) (a b : Local) : Decidable (Flow instrs a b) :=
  inferInstanceAs (Decidable (∃ instr ∈ instrs, (a, b) ∈ instr.flows))

section Bounds

variable {n : Nat}

theorem PlaceElem.indexLocal_lt {elem : PlaceElem} {idx : Local} (hidx : elem.localsBelow n)
    (h : elem.indexLocal = some idx) : idx < n := by
  cases elem <;> simp_all [PlaceElem.indexLocal, PlaceElem.localsBelow]

theorem Place.local_lt {place : Place} (h : place.localsBelow n) : place.local < n := by
  simp only [Place.localsBelow, Bool.and_eq_true, decide_eq_true_eq] at h
  exact h.1

theorem Place.reads_lt {place : Place} (h : place.localsBelow n) : ∀ x ∈ place.reads, x < n := by
  simp only [Place.localsBelow, Bool.and_eq_true, decide_eq_true_eq, List.all_eq_true] at h
  intro x hx
  rcases List.mem_cons.mp hx with rfl | hx
  · exact h.1
  · obtain ⟨elem, he, hidx⟩ := List.mem_filterMap.mp hx
    exact PlaceElem.indexLocal_lt (h.2 elem he) hidx

theorem Operand.reads_lt {operand : Operand} (h : operand.localsBelow n) :
    ∀ x ∈ operand.reads, x < n := by
  cases operand with
  | copy place | move place => exact Place.reads_lt h
  | constant => simp [Operand.reads]

theorem Operand.flatMap_reads_lt {operands : List Operand} (h : operands.all (·.localsBelow n)) :
    ∀ x ∈ operands.flatMap Operand.reads, x < n := fun x hx =>
  let ⟨o, ho, hx⟩ := List.mem_flatMap.mp hx
  Operand.reads_lt (List.all_eq_true.mp h o ho) x hx

theorem Rvalue.reads_lt {rvalue : Rvalue} (h : rvalue.localsBelow n) : ∀ x ∈ rvalue.reads, x < n := by
  cases rvalue <;> simp only [Rvalue.localsBelow, Rvalue.reads, Bool.and_eq_true] at h ⊢
  case use | «repeat» | cast | unaryOp | shallowInitBox => exact Operand.reads_lt h
  case ref | len | discriminant | copyForDeref => exact Place.reads_lt h
  case binaryOp =>
    intro x hx
    exact (List.mem_append.mp hx).elim (Operand.reads_lt h.1 x) (Operand.reads_lt h.2 x)
  case aggregate => exact Operand.flatMap_reads_lt h
  case nullaryOp | threadLocalRef | rawPtr => simp

theorem Operand.callReads_lt {func : Operand} {args : List Operand} (hf : func.localsBelow n)
    (hargs : args.all (·.localsBelow n)) : ∀ x ∈ func.callReads args, x < n := by
  intro x hx
  cases func with
  | constant c =>
    cases c with
    | val ty text =>
      cases hk : ty.kind <;> simp only [Operand.callReads, hk, List.not_mem_nil] at hx
      exact Operand.flatMap_reads_lt hargs x hx
    | ty | unevaluated => simp [Operand.callReads] at hx
  | move place =>
    exact (List.mem_append.mp hx).elim (Operand.reads_lt hf x) (Operand.flatMap_reads_lt hargs x)
  | copy => simp [Operand.callReads] at hx

-- Every flow runs between two locals of the body.
theorem Instr.flows_lt {instr : Instr} (h : instr.localsBelow n) :
    ∀ p ∈ instr.flows, p.1 < n ∧ p.2 < n := by
  intro p hp
  rcases instr with ⟨⟨place, rvalue⟩ | _, _⟩ | ⟨⟨func, args, destination⟩ | _, _⟩
  · simp only [Instr.localsBelow, Bool.and_eq_true] at h
    simp only [Instr.flows] at hp
    split_ifs at hp
    · obtain ⟨x, hx, rfl⟩ := List.mem_map.mp hp
      exact ⟨Rvalue.reads_lt h.2 x hx, Place.local_lt h.1⟩
    · simp at hp
  · simp [Instr.flows] at hp
  · simp only [Instr.localsBelow, Bool.and_eq_true] at h
    obtain ⟨x, hx, rfl⟩ := List.mem_map.mp hp
    exact ⟨Operand.callReads_lt h.1.1 h.1.2 x hx, Place.local_lt h.2⟩
  · simp [Instr.flows] at hp

end Bounds

namespace Graph

-- A walk along the edges `es` from `x` to `y` whose inner nodes all lie past the `n` locals:
-- marker nodes of projection chains and constant nodes.
inductive FreshWalk (es : List GraphEdge) (n : Nat) : Local → Local → Prop
  | single {x y : Local} : (∃ e ∈ es, e.src = x ∧ e.dst = y) → FreshWalk es n x y
  | cons {x f y : Local} : (∃ e ∈ es, e.src = x ∧ e.dst = f) → n ≤ f → FreshWalk es n f y →
      FreshWalk es n x y

-- `x` is `v`, or reaches `v`, itself past the locals, by such a walk.
def Reach (es : List GraphEdge) (n : Nat) (x v : Local) : Prop :=
  x = v ∨ (n ≤ v ∧ FreshWalk es n x v)

-- Every edge joins two nodes below `L`.
def EdgesBelow (es : List GraphEdge) (L : Nat) : Prop :=
  ∀ e ∈ es, e.src < L ∧ e.dst < L

section Walk

variable {es new : List GraphEdge} {n L : Nat} {x y z v : Local}

theorem FreshWalk.mono {es' : List GraphEdge} (h : ∀ e ∈ es, e ∈ es') (hw : FreshWalk es n x y) :
    FreshWalk es' n x y := by
  induction hw with
  | single he => obtain ⟨e, he, hs, hd⟩ := he; exact .single ⟨e, h e he, hs, hd⟩
  | cons he hf _ ih => obtain ⟨e, he, hs, hd⟩ := he; exact .cons ⟨e, h e he, hs, hd⟩ hf ih

theorem FreshWalk.snoc (hw : FreshWalk es n x y) (hy : n ≤ y)
    (he : ∃ e ∈ es, e.src = y ∧ e.dst = z) : FreshWalk es n x z := by
  induction hw with
  | single h => exact .cons h hy (.single he)
  | cons h hf _ ih => exact .cons h hf (ih hy he)

theorem FreshWalk.exists_first (hw : FreshWalk es n x y) : ∃ e ∈ es, e.src = x := by
  cases hw with
  | single h | cons h _ _ => obtain ⟨e, he, hs, -⟩ := h; exact ⟨e, he, hs⟩

theorem FreshWalk.exists_last (hw : FreshWalk es n x y) : ∃ e ∈ es, e.dst = y := by
  induction hw with
  | single h => obtain ⟨e, he, -, hd⟩ := h; exact ⟨e, he, hd⟩
  | cons _ _ _ ih => exact ih

theorem FreshWalk.transGen (hw : FreshWalk es n x y) :
    Relation.TransGen (fun a b => ∃ e ∈ es, e.src = a ∧ e.dst = b) x y := by
  induction hw with
  | single h => exact .single h
  | cons h _ _ ih => exact .head h ih

theorem reach_of_lt (hv : v < n) : Reach es n x v ↔ x = v :=
  or_iff_left fun h => absurd h.1 (Nat.not_le.mpr hv)

-- Pushing an edge into a local, or into a node no edge leaves, adds exactly the walks that end
-- with it.
theorem freshWalk_append_iff {e : GraphEdge}
    (hd : e.dst < n ∨ (e.src ≠ e.dst ∧ ∀ e' ∈ es, e'.src ≠ e.dst)) :
    FreshWalk (es ++ [e]) n x y ↔ FreshWalk es n x y ∨ (y = e.dst ∧ Reach es n x e.src) := by
  constructor
  · intro hw
    induction hw with
    | single h =>
      obtain ⟨e', he', rfl, rfl⟩ := h
      rcases List.mem_append.mp he' with he' | he'
      · exact .inl (.single ⟨e', he', rfl, rfl⟩)
      · obtain rfl := List.mem_singleton.mp he'
        exact .inr ⟨rfl, .inl rfl⟩
    | cons h hf hw ih =>
      obtain ⟨e', he', rfl, rfl⟩ := h
      rcases List.mem_append.mp he' with he' | he'
      · rcases ih with ih | ⟨rfl, hr | ⟨hn, hr⟩⟩
        · exact .inl (.cons ⟨e', he', rfl, rfl⟩ hf ih)
        · exact .inr ⟨rfl, .inr ⟨hr ▸ hf, .single ⟨e', he', rfl, hr⟩⟩⟩
        · exact .inr ⟨rfl, .inr ⟨hn, .cons ⟨e', he', rfl, rfl⟩ hf hr⟩⟩
      · -- the walk would go on from the new edge's end, which no edge leaves
        obtain rfl := List.mem_singleton.mp he'
        obtain ⟨e'', he'', hs⟩ := hw.exists_first
        rcases hd with hd | ⟨hne, hsink⟩
        · exact absurd hf (Nat.not_le.mpr hd)
        · rcases List.mem_append.mp he'' with he'' | he''
          · exact (hsink e'' he'' hs).elim
          · exact (hne ((List.mem_singleton.mp he'') ▸ hs)).elim
  · rintro (hw | ⟨rfl, rfl | ⟨hn, hw⟩⟩)
    · exact hw.mono fun _ h => List.mem_append_left _ h
    · exact .single ⟨e, List.mem_append_right _ (List.mem_singleton_self _), rfl, rfl⟩
    · exact (hw.mono fun _ h => List.mem_append_left _ h).snoc hn
        ⟨e, List.mem_append_right _ (List.mem_singleton_self _), rfl, rfl⟩

-- Edges pushed into nodes from `L` on leave every walk to an older node as it was.
theorem freshWalk_append_above (hE : EdgesBelow es L) (hnew : ∀ e ∈ new, L ≤ e.dst) (hy : y < L) :
    FreshWalk (es ++ new) n x y ↔ FreshWalk es n x y := by
  refine ⟨fun hw => ?_, FreshWalk.mono fun _ h => List.mem_append_left _ h⟩
  induction hw with
  | single h =>
    obtain ⟨e, he, rfl, rfl⟩ := h
    rcases List.mem_append.mp he with he | he
    · exact .single ⟨e, he, rfl, rfl⟩
    · exact absurd (hnew e he) (Nat.not_le.mpr hy)
  | cons h hf _ ih =>
    obtain ⟨e, he, rfl, rfl⟩ := h
    have hw := ih hy
    obtain ⟨e', he', hs⟩ := hw.exists_first
    rcases List.mem_append.mp he with he | he
    · exact .cons ⟨e, he, rfl, rfl⟩ hf hw
    · exact absurd (hnew e he) (Nat.not_le.mpr (hs ▸ (hE e' he').1))

-- Edges pushed into one node `d` that no edge leaves add the walks that end there through one
-- of them.
theorem freshWalk_append_into {d : Local} (hnew : ∀ e ∈ new, e.dst = d ∧ e.src ≠ d)
    (hsink : ∀ e ∈ es, e.src ≠ d) :
    FreshWalk (es ++ new) n x y ↔ FreshWalk es n x y ∨ (y = d ∧ ∃ e ∈ new, Reach es n x e.src) := by
  induction new generalizing es with
  | nil => simp
  | cons e rest ih =>
    obtain ⟨⟨hd, hne⟩, hrest⟩ := List.forall_mem_cons.mp hnew
    have step : ∀ {y}, FreshWalk (es ++ [e]) n x y ↔
        FreshWalk es n x y ∨ (y = d ∧ Reach es n x e.src) := by
      intro y
      rw [freshWalk_append_iff (.inr ⟨hd ▸ hne, hd ▸ hsink⟩), hd]
    -- a source of a later edge is not `d`, so the walks to it are the old ones
    have hreach : ∀ e' ∈ rest, Reach (es ++ [e]) n x e'.src ↔ Reach es n x e'.src :=
      fun e' he' => or_congr_right (and_congr_right fun _ =>
        step.trans (or_iff_left fun h => (hrest e' he').2 h.1))
    have hsink' : ∀ e' ∈ es ++ [e], e'.src ≠ d := fun e' he' =>
      (List.mem_append.mp he').elim (hsink e') fun h => (List.mem_singleton.mp h) ▸ hne
    rw [← List.singleton_append, ← List.append_assoc, ih hrest hsink', step]
    constructor
    · rintro ((hw | ⟨rfl, hr⟩) | ⟨rfl, e', he', hr⟩)
      · exact .inl hw
      · exact .inr ⟨rfl, e, List.mem_cons_self _ _, hr⟩
      · exact .inr ⟨rfl, e', List.mem_cons_of_mem _ he', (hreach e' he').mp hr⟩
    · rintro (hw | ⟨rfl, e', he', hr⟩)
      · exact .inl (.inl hw)
      · rcases List.mem_cons.mp he' with rfl | he'
        · exact .inl (.inr ⟨rfl, hr⟩)
        · exact .inr ⟨rfl, e', he', (hreach e' he').mpr hr⟩

end Walk

section Chain

variable {es : List GraphEdge} {n L : Nat} {ret : Local}

-- Each edge `parse_one_step` pushes runs into the fresh node, from `ret` or from the index local.
theorem stepEdges_into {elem : PlaceElem} :
    ∀ e ∈ stepEdges ret L elem, e.dst = L ∧ (e.src = ret ∨ elem.indexLocal = some e.src) := by
  cases elem with
  | downcast symbol => cases symbol <;> simp [stepEdges]
  | _ => simp [stepEdges, PlaceElem.indexLocal]

theorem exists_stepEdges {P : Local → Prop} {elem : PlaceElem} (hs : elem.supported) :
    (∃ e ∈ stepEdges ret L elem, P e.src) ↔ P ret ∨ ∃ idx, elem.indexLocal = some idx ∧ P idx := by
  cases elem with
  | downcast symbol => cases symbol <;> simp_all [stepEdges, PlaceElem.indexLocal, PlaceElem.supported]
  | _ => simp_all [stepEdges, PlaceElem.indexLocal, PlaceElem.supported]

-- One projection step from `ret` into the fresh node `L`: the locals reaching `L` are those
-- reaching `ret` and the index local.
theorem stepEdges_reach (hE : EdgesBelow es L) (hn : n ≤ L) (hret : ret < L) {elem : PlaceElem}
    (hs : elem.supported) (hidx : elem.localsBelow n) :
    EdgesBelow (es ++ stepEdges ret L elem) (L + 1) ∧ ∀ x < n,
      (Reach (es ++ stepEdges ret L elem) n x L ↔ Reach es n x ret ∨ elem.indexLocal = some x) := by
  have hinto : ∀ e ∈ stepEdges ret L elem, e.dst = L ∧ e.src < L := fun e he => by
    obtain ⟨hd, hs | hs⟩ := stepEdges_into e he
    · exact ⟨hd, hs ▸ hret⟩
    · exact ⟨hd, lt_of_lt_of_le (PlaceElem.indexLocal_lt hidx hs) hn⟩
  refine ⟨fun e he => ?_, fun x hx => ?_⟩
  · rcases List.mem_append.mp he with he | he
    · exact ⟨Nat.lt_succ_of_lt (hE e he).1, Nat.lt_succ_of_lt (hE e he).2⟩
    · exact ⟨Nat.lt_succ_of_lt (hinto e he).2, (hinto e he).1 ▸ Nat.lt_succ_self L⟩
  have hwalk := freshWalk_append_into (n := n) (x := x) (y := L)
    (fun e he => ⟨(hinto e he).1, (hinto e he).2.ne⟩) fun e he => (hE e he).1.ne
  -- no old edge ends at the fresh node
  have hold : ¬FreshWalk es n x L := fun hw =>
    let ⟨e, he, hd⟩ := hw.exists_last; (hE e he).2.ne hd
  have hxL : x ≠ L := (lt_of_lt_of_le hx hn).ne
  have hleft : Reach (es ++ stepEdges ret L elem) n x L ↔
      ∃ e ∈ stepEdges ret L elem, Reach es n x e.src := by
    rw [Reach, hwalk]
    simp [hold, hxL, hn]
  rw [hleft, exists_stepEdges hs]
  refine or_congr_right ⟨fun ⟨idx, h, hr⟩ => ?_, fun h => ⟨x, h, .inl rfl⟩⟩
  rwa [(reach_of_lt (PlaceElem.indexLocal_lt hidx h)).mp hr]

-- A projection chain from `ret` with fresh nodes from `L`: its edges stay below `L + k`, and
-- the locals reaching its last node are those reaching `ret` and its index locals.
theorem chainEdges_reach (hE : EdgesBelow es L) (hn : n ≤ L) (hret : ret < L)
    {elems : List PlaceElem} (hs : elems.all (·.supported)) (hidx : elems.all (·.localsBelow n)) :
    EdgesBelow (es ++ chainEdges ret L elems) (L + elems.length) ∧ ∀ x < n,
      (Reach (es ++ chainEdges ret L elems) n x
          (if elems = [] then ret else L + elems.length - 1) ↔
        Reach es n x ret ∨ x ∈ elems.filterMap PlaceElem.indexLocal) := by
  induction elems generalizing es ret L with
  | nil => simpa [chainEdges] using hE
  | cons elem rest ih =>
    simp only [List.all_cons, Bool.and_eq_true] at hs hidx
    obtain ⟨hE₁, hreach₁⟩ := stepEdges_reach hE hn hret hs.1 hidx.1
    obtain ⟨hE₂, hreach₂⟩ := ih hE₁ (Nat.le_succ_of_le hn) (Nat.lt_succ_self L) hs.2 hidx.2
    have hlast : (if rest = [] then L else L + 1 + rest.length - 1) =
        L + (rest.length + 1) - 1 := by
      split_ifs with h <;> simp [h, Nat.add_assoc, Nat.add_comm 1]
    have hlen : L + (rest.length + 1) = L + 1 + rest.length := by
      rw [Nat.add_comm rest.length 1, Nat.add_assoc]
    rw [chainEdges, ← List.append_assoc, if_neg (List.cons_ne_nil _ _), List.length_cons]
    refine ⟨by rw [hlen]; exact hE₂, fun x hx => ?_⟩
    rw [← hlast, hreach₂ x hx, hreach₁ x hx, List.filterMap_cons]
    cases elem.indexLocal <;> simp [or_assoc, eq_comm]

end Chain

section Feeds

variable {n : Nat} {d : Local} {g g' g₁ : Graph} {R R₁ R₂ : List Local}

-- What a part of an instruction that writes the local `d` does to the walks out of the locals:
-- nodes are only appended, every edge stays between nodes, and of the walks to old nodes the new
-- ones end at `d` and start at a local of `R`.
structure Feeds (n : Nat) (d : Local) (R : List Local) (g g' : Graph) : Prop where
  length_le : g.nodes.length ≤ g'.nodes.length
  below : EdgesBelow g'.edges g'.nodes.length
  walk_iff : ∀ x < n, ∀ v < g.nodes.length,
    FreshWalk g'.edges n x v ↔ FreshWalk g.edges n x v ∨ (v = d ∧ x ∈ R)

theorem Feeds.refl (hE : EdgesBelow g.edges g.nodes.length) : Feeds n d [] g g :=
  ⟨le_rfl, hE, fun _ _ _ _ => by simp⟩

theorem Feeds.trans (h₁ : Feeds n d R₁ g g₁) (h₂ : Feeds n d R₂ g₁ g') : Feeds n d (R₁ ++ R₂) g g' :=
  ⟨h₁.length_le.trans h₂.length_le, h₂.below, fun x hx v hv => by
    rw [h₂.walk_iff x hx v (lt_of_lt_of_le hv h₁.length_le), h₁.walk_iff x hx v hv, List.mem_append,
      and_or_left, or_assoc]⟩

theorem Feeds.modifyNode (hE : EdgesBelow g.edges g.nodes.length) {i : Local}
    {f : GraphNode → GraphNode} (h : g.modifyNode i f = .ok g') : Feeds n d [] g g' := by
  obtain ⟨-, rfl⟩ := modifyNode_eq_ok.mp h
  exact ⟨by simp, by simpa using hE, fun _ _ _ _ => by simp⟩

-- A write to one node after a part leaves what the part fed.
theorem Feeds.andModify (h : Feeds n d R g g₁) {i : Local} {f : GraphNode → GraphNode}
    (h₂ : g₁.modifyNode i f = .ok g') : Feeds n d R g g' := by
  simpa using h.trans (Feeds.modifyNode h.below h₂)

theorem Feeds.addNodeEdge (hE : EdgesBelow g.edges g.nodes.length) (hd : d < n) {src : Local}
    {op : EdgeOp} {e : EdgeIdx} (hR : ∀ x < n, Reach g.edges n x src ↔ x ∈ R)
    (h : g.addNodeEdge src d op = .ok (g', e)) : Feeds n d R g g' := by
  obtain ⟨m, hm, hsrc, -, rfl⟩ := addNodeEdge_spec h
  refine ⟨by simp, fun e' he' => ?_, fun x hx v _ => ?_⟩
  · simp only [List.length_modify, List.mem_append, List.mem_singleton] at he' ⊢
    rcases he' with he' | rfl
    · exact hE e' he'
    · exact ⟨hsrc, (List.getElem?_eq_some_iff.mp hm).1⟩
  · rw [freshWalk_append_iff (.inl hd), hR x hx]

-- A constant node is a source: no walk from a local reaches it.
theorem Feeds.addConstEdge (hE : EdgesBelow g.edges g.nodes.length) (hn : n ≤ g.nodes.length)
    (hd : d < n) {text : String} {op : EdgeOp} {e : EdgeIdx}
    (h : g.addConstEdge text d op = .ok (g', e)) : Feeds n d [] g g' := by
  obtain ⟨m, hm, -, rfl⟩ := addConstEdge_spec h
  have hdL := (List.getElem?_eq_some_iff.mp hm).1
  refine ⟨by simp, fun e' he' => ?_, fun x hx v _ => ?_⟩
  · simp only [List.length_modify, List.length_append, List.length_singleton, List.mem_append,
      List.mem_singleton] at he' ⊢
    rcases he' with he' | rfl
    · exact ⟨Nat.lt_succ_of_lt (hE e' he').1, Nat.lt_succ_of_lt (hE e' he').2⟩
    · exact ⟨Nat.lt_succ_self _, Nat.lt_succ_of_lt hdL⟩
  · rw [freshWalk_append_iff (.inl hd)]
    refine (or_iff_left fun ⟨_, hr⟩ => ?_).trans (or_iff_left (List.not_mem_nil x ∘ And.right)).symm
    rcases hr with hr | ⟨-, hw⟩
    · obtain rfl : x = g.nodes.length := hr
      exact absurd hx (Nat.not_lt.mpr hn)
    · obtain ⟨e', he', hd'⟩ := hw.exists_last
      exact (hE e' he').2.ne hd'

theorem parseOneStep_supported {src dst : Local} {elem : PlaceElem}
    (h : g.parseOneStep src elem = .ok (g', dst)) : elem.supported := by
  cases elem with
  | downcast symbol =>
    cases symbol with
    | none => simp [Graph.parseOneStep, bind_eq_ok] at h
    | some => rfl
  | opaqueCast | subtype => simp [Graph.parseOneStep, bind_eq_ok] at h
  | _ => rfl

theorem parseSteps_supported {ret r : Local} {elems : List PlaceElem}
    (h : g.parseSteps ret elems = .ok (g', r)) : elems.all (·.supported) := by
  induction elems generalizing g ret with
  | nil => rfl
  | cons elem rest ih =>
    simp only [Graph.parseSteps, bind_eq_ok] at h
    obtain ⟨⟨g₁, r₁⟩, h₁, h₂⟩ := h
    simp only [List.all_cons, parseOneStep_supported h₁, ih h₂, Bool.and_self]

-- `parse_place` adds edges into the nodes it creates only, and the locals reaching the node it
-- returns are those the place reads.
theorem Feeds.parsePlace (hE : EdgesBelow g.edges g.nodes.length) (hn : n ≤ g.nodes.length)
    {place : Place} {r : Local} (hp : place.localsBelow n) (h : g.parsePlace place = .ok (g', r)) :
    Feeds n d [] g g' ∧ (∀ x < n, Reach g'.edges n x r ↔ x ∈ place.reads) ∧
      r = if place.projection = [] then place.local
        else g.nodes.length + place.projection.length - 1 := by
  simp only [Place.localsBelow, Bool.and_eq_true, decide_eq_true_eq] at hp
  obtain ⟨ha, rfl⟩ := Appends.parseSteps h
  obtain ⟨hE', hreach⟩ := chainEdges_reach hE hn (lt_of_lt_of_le hp.1 hn) (parseSteps_supported h) hp.2
  refine ⟨⟨by rw [ha.length_eq]; exact Nat.le_add_right _ _, by rwa [ha.edges_eq, ha.length_eq],
    fun x _ v hv => ?_⟩, fun x hx => ?_, rfl⟩
  · rw [ha.edges_eq, freshWalk_append_above hE chainEdges_dst hv, List.mem_nil_iff, and_false,
      or_false]
  · rw [ha.edges_eq, hreach x hx, reach_of_lt hp.1, Place.reads, List.mem_cons]

theorem Feeds.addPlaceEdge (hE : EdgesBelow g.edges g.nodes.length) (hn : n ≤ g.nodes.length)
    (hd : d < n) {place : Place} {op : EdgeOp} (hp : place.localsBelow n)
    (h : g.addPlaceEdge place d op = .ok g') : Feeds n d place.reads g g' := by
  simp only [Graph.addPlaceEdge, bind_eq_ok] at h
  obtain ⟨⟨g₁, r⟩, h₁, h₂⟩ := h
  obtain ⟨e, h₂⟩ := fst_map_eq_ok.mp h₂
  obtain ⟨hf, hreach, -⟩ := Feeds.parsePlace (d := d) hE hn hp h₁
  exact hf.trans (Feeds.addNodeEdge hf.below hd hreach h₂)

theorem Feeds.addOperand (hE : EdgesBelow g.edges g.nodes.length) (hn : n ≤ g.nodes.length)
    (hd : d < n) {operand : Operand} (hop : operand.localsBelow n)
    (h : g.addOperand operand d = .ok g') : Feeds n d operand.reads g g' := by
  cases operand with
  | copy place | move place => exact Feeds.addPlaceEdge hE hn hd hop h
  | constant c =>
    obtain ⟨e, h⟩ := fst_map_eq_ok.mp h
    exact Feeds.addConstEdge hE hn hd h

theorem Feeds.addOperands (hE : EdgesBelow g.edges g.nodes.length) (hn : n ≤ g.nodes.length)
    (hd : d < n) {operands : List Operand} (hops : operands.all (·.localsBelow n))
    (h : g.addOperands d operands = .ok g') : Feeds n d (operands.flatMap Operand.reads) g g' := by
  induction operands generalizing g with
  | nil => exact (pure_eq_ok.mp h) ▸ Feeds.refl hE
  | cons operand rest ih =>
    simp only [Graph.addOperands, bind_eq_ok, List.all_cons, Bool.and_eq_true] at h hops
    obtain ⟨g₁, h₁, h₂⟩ := h
    have hf₁ := Feeds.addOperand hE hn hd hops.1 h₁
    exact hf₁.trans (ih hf₁.below (le_trans hn hf₁.length_le) hops.2 h₂)

-- The `match rvalue` of `add_statm_to_graph` feeds `d` the locals the rvalue reads.
theorem Feeds.addRvalue (hE : EdgesBelow g.edges g.nodes.length) (hn : n ≤ g.nodes.length)
    (hd : d < n) {rvalue : Rvalue} (hrv : rvalue.localsBelow n)
    (h : g.addRvalue rvalue d = .ok g') : Feeds n d rvalue.reads g g' := by
  cases rvalue <;> simp only [Graph.addRvalue, bind_eq_ok, Rvalue.localsBelow,
    Bool.and_eq_true] at h hrv
  case use | «repeat» | cast | unaryOp | shallowInitBox =>
    obtain ⟨g₁, h₁, h₂⟩ := h
    exact (Feeds.addOperand hE hn hd hrv h₁).andModify h₂
  case ref | len | discriminant | copyForDeref =>
    obtain ⟨g₁, h₁, h₂⟩ := h
    exact (Feeds.addPlaceEdge hE hn hd hrv h₁).andModify h₂
  case binaryOp =>
    obtain ⟨g₁, h₁, g₂, h₂, h₃⟩ := h
    have hf₁ := Feeds.addOperand hE hn hd hrv.1 h₁
    exact (hf₁.trans (Feeds.addOperand hf₁.below (le_trans hn hf₁.length_le) hd hrv.2 h₂)).andModify h₃
  case aggregate kind _ =>
    obtain ⟨g₁, h₁, h₂⟩ := h
    cases hk : aggKind kind <;> simp only [hk, throw_ne_ok] at h₂
    exact (Feeds.addOperands hE hn hd hrv h₁).andModify h₂
  case nullaryOp =>
    obtain ⟨g₁, h₁, h₂⟩ := h
    obtain ⟨e, h₁⟩ := fst_map_eq_ok.mp h₁
    exact (Feeds.addConstEdge hE hn hd h₁).andModify h₂
  case threadLocalRef | rawPtr => exact absurd h throw_ne_ok

-- The `match func` of `add_terminator_to_graph` feeds the destination what the call reads.
theorem Feeds.addCall (hE : EdgesBelow g.edges g.nodes.length) (hn : n ≤ g.nodes.length)
    (hd : d < n) {func : Operand} {args : List Operand} (hf : func.localsBelow n)
    (hargs : args.all (·.localsBelow n)) (h : g.addCall func args d = .ok g') :
    Feeds n d (func.callReads args) g g' := by
  cases func with
  | constant c =>
    cases c with
    | val ty text =>
      cases hk : ty.kind with
      | fnDef defId =>
        simp only [Graph.addCall, hk, bind_eq_ok] at h
        obtain ⟨g₁, h₁, h₂⟩ := h
        simpa only [Operand.callReads, hk] using (Feeds.addOperands hE hn hd hargs h₁).andModify h₂
      | other =>
        simp only [Graph.addCall, hk, pure_eq_ok] at h
        simpa only [Operand.callReads, hk, ← h] using Feeds.refl hE
    | ty | unevaluated => exact (pure_eq_ok.mp h) ▸ Feeds.refl hE
  | move place =>
    simp only [Graph.addCall, bind_eq_ok] at h
    obtain ⟨g₁, h₁, g₂, h₂, h₃⟩ := h
    have hf₁ := Feeds.addOperand hE hn hd hf h₁
    exact (hf₁.trans (Feeds.addOperands hf₁.below (le_trans hn hf₁.length_le) hd hargs h₂)).andModify h₃
  | copy place => exact absurd h throw_ne_ok

end Feeds

section Run

variable {n : Nat} {g g' : Graph}

theorem mem_map_pair {R : List Local} {d x v : Local} : (x, v) ∈ R.map (·, d) ↔ v = d ∧ x ∈ R := by
  simp only [List.mem_map, Prod.mk.injEq]
  exact ⟨fun ⟨_, ha, hax, hdv⟩ => ⟨hdv.symm, hax ▸ ha⟩, fun ⟨hvd, hx⟩ => ⟨x, hx, rfl, hvd.symm⟩⟩

theorem WellFormed.edgesBelow (hg : g.WellFormed) : EdgesBelow g.edges g.nodes.length :=
  fun _ he => ⟨hg.src_lt _ he, hg.dst_lt he⟩

theorem WellFormed.nLocals_le (hg : g.WellFormed) : g.nLocals ≤ g.nodes.length :=
  Nat.le_of_not_lt fun hlt => Nat.lt_irrefl _ (hg.locals_plain _ hlt).lt

-- An instruction whose new edges all end at nodes it creates leaves the walks to old nodes.
theorem InstrStep.freshWalk_iff {dst : Option Local} (hs : InstrStep g g' dst)
    (hE : EdgesBelow g.edges g.nodes.length) (hd : ∀ w, dst = some w → g.nodes.length ≤ w)
    {x v : Local} (hv : v < g.nodes.length) : FreshWalk g'.edges n x v ↔ FreshWalk g.edges n x v := by
  obtain ⟨t, ht⟩ := hs.edges_prefix
  rw [← ht]
  refine freshWalk_append_above hE (fun e he => ?_) hv
  obtain ⟨i, hi⟩ := List.mem_iff_getElem?.mp he
  have hnew := hs.new_edge (g.edges.length + i) e (Nat.le_add_right _ _)
    (by rw [← ht, List.getElem?_append_right (Nat.le_add_right _ _), Nat.add_sub_cancel_left]; exact hi)
  exact hnew.2.2.elim (fun h => hd _ h) id

-- One instruction changes the walks between locals by exactly its flows.
theorem addInstr_freshWalk (hE : EdgesBelow g.edges g.nodes.length) (hn : n ≤ g.nodes.length)
    {instr : Instr} (hi : instr.localsBelow n) (h : g.addInstr instr = .ok g') :
    ∀ x < n, ∀ v < n, FreshWalk g'.edges n x v ↔ FreshWalk g.edges n x v ∨ (x, v) ∈ instr.flows := by
  intro x hx v hv
  have hvL := lt_of_lt_of_le hv hn
  cases instr with
  | statement statement =>
    obtain ⟨kind, span⟩ := statement
    cases kind with
    | other =>
      obtain rfl := pure_eq_ok.mp h
      simp [Instr.flows]
    | assign place rvalue =>
      simp only [Instr.localsBelow, Bool.and_eq_true] at hi
      by_cases hproj : place.projection = []
      · -- the statement writes the local itself
        simp only [Graph.addInstr, Graph.addStatmToGraph, bind_eq_ok] at h
        obtain ⟨⟨g₁, dst⟩, h₁, g₂, h₂, g₃, h₃, h₄⟩ := h
        obtain ⟨hf₁, -, hr⟩ := Feeds.parsePlace (d := place.local) hE hn hi.1 h₁
        rw [if_pos hproj] at hr
        subst hr
        have hf₂ := hf₁.andModify h₂
        have hf := (hf₂.trans (Feeds.addRvalue hf₂.below (le_trans hn hf₂.length_le)
          (Place.local_lt hi.1) hi.2 h₃)).andModify h₄
        rw [hf.walk_iff x hx v hvL]
        simp only [Instr.flows, if_pos hproj, mem_map_pair, List.nil_append]
      · -- it writes through a projection: every new edge ends at a node it creates
        have hs := InstrStep.addInstr h
        rw [hs.freshWalk_iff hE (fun w hw => ?_) hvL]
        · simp [Instr.flows, hproj]
        · simp only [dest, if_neg hproj, Option.some.injEq] at hw
          rw [← hw, Nat.add_sub_assoc (List.length_pos.mpr hproj)]
          exact Nat.le_add_right _ _
  | terminator terminator =>
    obtain ⟨kind, span⟩ := terminator
    cases kind with
    | other =>
      obtain rfl := pure_eq_ok.mp h
      simp [Instr.flows]
    | call func args destination =>
      simp only [Instr.localsBelow, Bool.and_eq_true] at hi
      simp only [Graph.addInstr, Graph.addTerminatorToGraph, bind_eq_ok] at h
      obtain ⟨g₁, h₁, g₂, h₂, h₃⟩ := h
      have hf := ((Feeds.addCall hE hn (Place.local_lt hi.2) hi.1.1 hi.1.2 h₁).andModify h₂).andModify h₃
      rw [hf.walk_iff x hx v hvL]
      simp only [Instr.flows, mem_map_pair]

-- A run of the builder adds to the walks between locals the flows of its instructions.
theorem translate_freshWalk {instrs : List Instr} (hg : g.WellFormed)
    (hi : ∀ instr ∈ instrs, instr.localsBelow g.nLocals) (h : g.translate instrs = .ok g') :
    ∀ x < g.nLocals, ∀ v < g.nLocals, FreshWalk g'.edges g.nLocals x v ↔
      FreshWalk g.edges g.nLocals x v ∨ Flow instrs x v := by
  induction instrs generalizing g with
  | nil =>
    obtain rfl := pure_eq_ok.mp h
    simp [Flow]
  | cons instr rest ih =>
    simp only [Graph.translate, bind_eq_ok] at h
    obtain ⟨g₁, h₁, h₂⟩ := h
    obtain ⟨hg₁, hgrow⟩ := hg.addInstr (hi instr (List.mem_cons_self _ _)) h₁
    have hrest := ih hg₁ (fun i hm => hgrow.nLocals_eq ▸ hi i (List.mem_cons_of_mem _ hm)) h₂
    rw [hgrow.nLocals_eq] at hrest
    intro x hx v hv
    rw [hrest x hx v hv, addInstr_freshWalk hg.edgesBelow hg.nLocals_le
      (hi instr (List.mem_cons_self _ _)) h₁ x hx v hv]
    simp only [Flow, List.mem_cons, exists_eq_or_imp, or_assoc]

-- In a graph the builder produces from `Graph::new`, the walks between locals whose inner nodes
-- are markers or constants are the direct flows of its instructions.
theorem freshWalk_iff_flow {instrs : List Instr} {defId : DefId} {span : Span} {argc : Nat}
    {G : Graph} (hi : ∀ instr ∈ instrs, instr.localsBelow n)
    (hG : (Graph.new defId span argc n).translate instrs = .ok G) {x v : Local} (hx : x < n)
    (hv : v < n) : FreshWalk G.edges n x v ↔ Flow instrs x v := by
  have h := translate_freshWalk (wellFormed_new defId span argc n) hi hG x hx v hv
  have hnone : ¬FreshWalk (Graph.new defId span argc n).edges n x v := fun hw =>
    let ⟨_, he, _⟩ := hw.exists_first; List.not_mem_nil _ he
  exact h.trans (or_iff_right hnone)

end Run

end Graph

end RapxDataflow
