import RapxDataflow.Graph.Build

namespace RapxDataflow.Graph

-- The graphs one run of the builder passes through: `g`, then the graph after each
-- instruction, so that `gs[k]` is the graph before the instruction at position `k`.
def trace (g : Graph) : List Instr → Except Fault (List Graph)
  | [] => pure [g]
  | instr :: rest => do
    let g' ← g.addInstr instr
    let gs ← g'.trace rest
    pure (g :: gs)

-- Edge `e` is `edge`, and was pushed while the instruction at position `k` was translated.
def CreatedAt (gs : List Graph) (k e : Nat) (edge : GraphEdge) : Prop :=
  ∃ gk gk', gs[k]? = some gk ∧ gs[k + 1]? = some gk' ∧ gk.edges.length ≤ e ∧
    gk'.edges[e]? = some edge

section Trace

variable {g g' gj gk gk' : Graph} {instr : Instr} {instrs rest : List Instr} {gs : List Graph}
  {j k : Nat}

theorem trace_cons_eq_ok : g.trace (instr :: rest) = .ok gs ↔
    ∃ g₁, g.addInstr instr = .ok g₁ ∧ ∃ gs₁, g₁.trace rest = .ok gs₁ ∧ g :: gs₁ = gs := by
  simp only [trace, bind_eq_ok, pure_eq_ok]

theorem trace_head (h : g.trace instrs = .ok gs) : gs[0]? = some g := by
  cases instrs with
  | nil => cases h; rfl
  | cons instr rest =>
    obtain ⟨_, -, _, -, rfl⟩ := trace_cons_eq_ok.mp h
    simp

theorem trace_length (h : g.trace instrs = .ok gs) : gs.length = instrs.length + 1 := by
  induction instrs generalizing g gs with
  | nil => cases h; rfl
  | cons instr rest ih =>
    obtain ⟨_, -, _, h₂, rfl⟩ := trace_cons_eq_ok.mp h
    simp [ih h₂]

-- Consecutive graphs of a trace are one `addInstr` apart.
theorem trace_step (h : g.trace instrs = .ok gs) (hk : gs[k]? = some gk)
    (hk' : gs[k + 1]? = some gk') : ∃ instr, instrs[k]? = some instr ∧ gk.addInstr instr = .ok gk' := by
  induction instrs generalizing g gs k with
  | nil =>
    cases h
    simp at hk'
  | cons instr rest ih =>
    obtain ⟨g₁, h₁, gs₁, h₂, rfl⟩ := trace_cons_eq_ok.mp h
    cases k with
    | zero =>
      obtain rfl : g = gk := by simpa using hk
      rw [List.getElem?_cons_succ, trace_head h₂, Option.some.injEq] at hk'
      exact ⟨instr, List.getElem?_cons_zero, hk' ▸ h₁⟩
    | succ k =>
      rw [List.getElem?_cons_succ] at hk hk' ⊢
      exact ih h₂ hk hk'

-- The graph at position `k` is what `translate` makes of the first `k` instructions.
theorem trace_translate (h : g.trace instrs = .ok gs) (hk : gs[k]? = some gk) :
    g.translate (instrs.take k) = .ok gk := by
  induction instrs generalizing g gs k with
  | nil =>
    cases h
    cases k with
    | zero => exact (Option.some.inj hk) ▸ rfl
    | succ k => simp at hk
  | cons instr rest ih =>
    obtain ⟨g₁, h₁, gs₁, h₂, rfl⟩ := trace_cons_eq_ok.mp h
    cases k with
    | zero =>
      obtain rfl : g = gk := by simpa using hk
      rfl
    | succ k => simpa [translate, h₁] using ih h₂ (by simpa using hk)

theorem trace_of_translate (h : g.translate instrs = .ok g') :
    ∃ gs, g.trace instrs = .ok gs ∧ gs[instrs.length]? = some g' := by
  induction instrs generalizing g with
  | nil => exact ⟨[g], rfl, by cases h; rfl⟩
  | cons instr rest ih =>
    simp only [translate, bind_eq_ok] at h
    obtain ⟨g₁, h₁, h₂⟩ := h
    obtain ⟨gs, hgs, hlast⟩ := ih h₂
    exact ⟨g :: gs, trace_cons_eq_ok.mpr ⟨g₁, h₁, gs, hgs, rfl⟩, by simpa using hlast⟩

theorem translate_append (l₁ l₂ : List Instr) :
    g.translate (l₁ ++ l₂) = g.translate l₁ >>= (·.translate l₂) := by
  induction l₁ generalizing g with
  | nil => rfl
  | cons instr rest ih =>
    simp only [List.cons_append, translate]
    cases g.addInstr instr <;> simp [ih]

theorem exists_getElem?_of_succ {l : List Graph} (h : l[k + 1]? = some gk') : ∃ gk, l[k]? = some gk :=
  ⟨_, List.getElem?_eq_getElem (Nat.lt_of_succ_lt (List.getElem?_eq_some_iff.mp h).1)⟩

-- A relation that every instruction's step satisfies holds between any two graphs of a
-- trace, the earlier one first.
theorem trace_chain {R : Graph → Graph → Prop} (hrefl : ∀ g, R g g)
    (htrans : ∀ {a b c}, R a b → R b c → R a c)
    (hstep : ∀ {a b instr}, instr ∈ instrs → a.addInstr instr = .ok b → R a b)
    (h : g.trace instrs = .ok gs) (hjk : j ≤ k) (hj : gs[j]? = some gj) (hk : gs[k]? = some gk) :
    R gj gk := by
  induction k generalizing gk with
  | zero =>
    obtain rfl := Nat.le_zero.mp hjk
    exact Option.some.inj (hj.symm.trans hk) ▸ hrefl gj
  | succ k ih =>
    rcases Nat.eq_or_lt_of_le hjk with rfl | hlt
    · exact Option.some.inj (hj.symm.trans hk) ▸ hrefl gj
    · obtain ⟨gk₀, hk₀⟩ := exists_getElem?_of_succ hk
      obtain ⟨instr, hinstr, hstep'⟩ := trace_step h hk₀ hk
      exact htrans (ih (Nat.le_of_lt_succ hlt) hk₀) (hstep (List.mem_iff_getElem?.mpr ⟨k, hinstr⟩) hstep')

end Trace

end RapxDataflow.Graph
