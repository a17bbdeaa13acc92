import Planner.Proofs.Flow.Rewriting
import Planner.Program.Lowering

/-! # The code of a program

`Statement.code` is the nested code of a statement, given the schemes of the relations assigned before
and the number of its first node.  Nodes are numbered in the order of the text (`ids_codeAll`), one
for each assignment, each store and each condition of a loop; reads have the schemes of the latest
assignments (`Plan.bound`).

Main statement: `toGraph_shows`, the flow graph of a program shows the code of the program.  The code
is proper (`proper_codeAll`): the nodes outside the tests of loops are assignments and stores, the
tests assign nothing, and every node lists what its plan reads. -/

namespace Planner

open Planner.Flow

/-- The plan with the schemes of the latest assignments at its reads. -/
def Plan.bound (temps : Temps) (p : Plan) : Plan := (p.bindTemps temps).1

namespace Statement

mutual

/-- The number of nodes of a statement: one for itself and those of its body. -/
def size : Statement → ℕ
  | assign _ _ => 1
  | store _ _ => 1
  | doWhile body _ => sizeAll body + 1

/-- The number of nodes of several statements. -/
def sizeAll : List Statement → ℕ
  | [] => 0
  | s :: rest => size s + sizeAll rest

end

mutual

/-- The schemes of the assigned relations behind a statement. -/
def assigned (cells : Cells) : Statement → Temps → Temps
  | assign target plan, temps =>
    match (plan.bound temps).scheme cells with
    | .ok scheme => (target, scheme) :: temps
    | .error _ => temps
  | store _ _, temps => temps
  | doWhile body _, temps => assignedAll cells body temps

/-- The schemes of the assigned relations behind several statements. -/
def assignedAll (cells : Cells) : List Statement → Temps → Temps
  | [], temps => temps
  | s :: rest, temps => assignedAll cells rest (assigned cells s temps)

end

mutual

/-- The code of a statement whose first node has the number `i`. -/
def code (cells : Cells) : Statement → Temps → ℕ → Code
  | assign target plan, temps, i =>
    .step ⟨i, .unary {} (.storeTemp target) (plan.bound temps), some target,
      (plan.bound temps).temps⟩ .done
  | store key plan, temps, i =>
    .step ⟨i, .unary {} (.store key) (plan.bound temps), none, (plan.bound temps).temps⟩ .done
  | doWhile body condition, temps, i =>
    let test := condition.bound (assignedAll cells body temps)
    .loop (codeAll cells body temps i) ⟨i + sizeAll body, test, none, test.temps⟩ .done

/-- The code of several statements. -/
def codeAll (cells : Cells) : List Statement → Temps → ℕ → Code
  | [], _, _ => .done
  | s :: rest, temps, i =>
    (code cells s temps i).append (codeAll cells rest (assigned cells s temps) (i + size s))

end

mutual

theorem ids_code (cells : Cells) (s : Statement) (temps : Temps) (i : ℕ) :
    (s.code cells temps i).ids = List.range' i s.size := by
  cases s with
  | assign target plan => rfl
  | store key plan => rfl
  | doWhile body condition =>
      rw [code, size, Code.ids_loop, ids_codeAll cells body temps i, Code.ids_done,
        List.range'_concat, Nat.one_mul]

theorem ids_codeAll (cells : Cells) (l : List Statement) (temps : Temps) (i : ℕ) :
    (codeAll cells l temps i).ids = List.range' i (sizeAll l) := by
  cases l with
  | nil => rfl
  | cons s rest =>
      rw [codeAll, sizeAll, Code.ids_append, ids_code cells s temps i,
        ids_codeAll cells rest (s.assigned cells temps) (i + s.size), List.range'_append_1]

end

theorem size_pos (s : Statement) : 0 < s.size := by
  cases s <;> simp [size]

theorem sizeAll_pos {l : List Statement} (h : ¬ l.isEmpty = true) : 0 < sizeAll l := by
  cases l with
  | nil => exact absurd rfl h
  | cons s rest =>
      have := s.size_pos
      rw [sizeAll]
      omega

end Statement

/-! ### Lowering -/

namespace Lowering

open Statement

theorem bindTemps_of_prepare {s : Lowering} {p q : Plan} {scheme : Scheme}
    (h : s.prepare p = .ok (q, scheme)) :
    p.bindTemps s.temps = (q, none) ∧ q.scheme s.graph.cells = .ok scheme := by
  unfold prepare at h
  split at h
  · cases h
  · rename_i r hbind
    cases hscheme : r.scheme s.graph.cells with
    | error e => rw [hscheme] at h; cases h
    | ok found =>
        rw [hscheme] at h
        obtain ⟨rfl, rfl⟩ := Prod.mk.inj (Except.ok.inj h)
        exact ⟨hbind, hscheme⟩

theorem prepare_eq_ok {s : Lowering} {p q : Plan} {scheme : Scheme}
    (h : s.prepare p = .ok (q, scheme)) :
    q = p.bound s.temps ∧ q.scheme s.graph.cells = .ok scheme := by
  obtain ⟨hbind, hscheme⟩ := bindTemps_of_prepare h
  exact ⟨by rw [Plan.bound, hbind], hscheme⟩

/-- A statement that adds one node for its plan is lowered if the plan could be prepared. -/
theorem statement_eq_ok {st : Statement} {s s' : Lowering} {plan : Plan}
    {next : Plan → Scheme → Lowering}
    (hst : (statement st s).value = (s.prepare plan).map (fun r => next r.1 r.2))
    (h : (statement st s).value = .ok s') :
    ∃ q scheme, s.prepare plan = .ok (q, scheme) ∧ s' = next q scheme := by
  rw [hst] at h
  cases hp : s.prepare plan with
  | error e => rw [hp] at h; cases h
  | ok found =>
      rw [hp] at h
      exact ⟨found.1, found.2, rfl, (Except.ok.inj h).symm⟩

theorem statement_assign_eq_ok {s s' : Lowering} {target : String} {plan : Plan}
    (h : (statement (.assign target plan) s).value = .ok s') :
    ∃ q scheme, s.prepare plan = .ok (q, scheme) ∧
      s' = ⟨s.graph.withNode (.unary {} (.storeTemp target) q) (some target) q.temps,
        (target, scheme) :: s.temps⟩ :=
  statement_eq_ok (by rw [statement]; cases s.prepare plan <;> rfl) h

theorem statement_store_eq_ok {s s' : Lowering} {key : RelationKey} {plan : Plan}
    (h : (statement (.store key plan) s).value = .ok s') :
    ∃ q scheme, s.prepare plan = .ok (q, scheme) ∧
      s' = ⟨s.graph.withNode (.unary {} (.store key) q) none q.temps, s.temps⟩ :=
  statement_eq_ok (by rw [statement]; cases s.prepare plan <;> rfl) h

theorem statement_doWhile_eq_ok {s s' : Lowering} {body : List Statement} {condition : Plan}
    (h : (statement (.doWhile body condition) s).value = .ok s') :
    ∃ s₁ q scheme g, ¬ body.isEmpty = true ∧ (block body s).value = .ok s₁ ∧
      s₁.prepare condition = .ok (q, scheme) ∧
      (s₁.graph.withNode q none q.temps).connect s₁.graph.next s.graph.next = .ok g ∧
      s' = { s₁ with graph := g } := by
  rw [statement] at h
  split_ifs at h with hempty
  rw [Logged.value_bind] at h
  cases hb : (block body s).value with
  | error e => rw [hb] at h; cases h
  | ok s₁ =>
      rw [hb] at h
      simp only at h
      cases hp : s₁.prepare condition with
      | error e => rw [hp] at h; cases h
      | ok found =>
          obtain ⟨q, scheme⟩ := found
          rw [hp] at h
          change ((s₁.graph.withNode q none q.temps).connect s₁.graph.next s.graph.next).map
            (fun g => { s₁ with graph := g }) = .ok s' at h
          cases hg : (s₁.graph.withNode q none q.temps).connect s₁.graph.next s.graph.next with
          | error e => rw [hg] at h; cases h
          | ok g =>
              rw [hg] at h
              exact ⟨s₁, q, scheme, g, hempty, rfl, hp, hg, (Except.ok.inj h).symm⟩

theorem block_cons_eq_ok {s s' : Lowering} {first : Statement} {rest : List Statement}
    (h : (block (first :: rest) s).value = .ok s') :
    ∃ s₁, (statement first s).value = .ok s₁ ∧ (block rest s₁).value = .ok s' := by
  rw [block, Logged.value_bind] at h
  cases hf : (statement first s).value with
  | error e => rw [hf] at h; cases h
  | ok s₁ =>
      rw [hf] at h
      exact ⟨s₁, rfl, h⟩

/-- From one state of lowering to another: the code that came behind what was there, and the schemes
that are known now. -/
structure Adds (s s' : Lowering) (d : Code) (temps : Temps) : Prop where
  shows : ∀ c, s.graph.Shows c → s'.graph.Shows (c.append d)
  temps_eq : s'.temps = temps
  cells_eq : s'.graph.cells = s.graph.cells
  next_eq : s'.graph.next = s.graph.next + d.ids.length

theorem Adds.trans {s s' s'' : Lowering} {d d' : Code} {temps temps' : Temps}
    (h : Adds s s' d temps) (h' : Adds s' s'' d' temps') : Adds s s'' (d.append d') temps' where
  shows := fun c hc => by
    rw [← Code.append_assoc]
    exact h'.shows _ (h.shows c hc)
  temps_eq := h'.temps_eq
  cells_eq := h'.cells_eq.trans h.cells_eq
  next_eq := by
    rw [h'.next_eq, h.next_eq, Code.ids_append, List.length_append]
    omega

theorem adds_node (s : Lowering) (op : Plan) (target : Option String) (temps : Temps) (reads : NameSet) :
    Adds s ⟨s.graph.withNode op target reads, temps⟩
      (.step ⟨s.graph.next, op, target, reads⟩ .done) temps where
  shows := fun _ hc => hc.withNode op target reads
  temps_eq := rfl
  cells_eq := rfl
  next_eq := rfl

/-- Closing a loop behind its body. -/
theorem Adds.connect {s s' : Lowering} {body : Code} {temps : Temps} {g : Graph} (test : Plan)
    (h : Adds s s' body temps) (hne : body ≠ .done) (hids : body.ids.head? = some s.graph.next)
    (hg : (s'.graph.withNode test none test.temps).connect s'.graph.next s.graph.next = .ok g) :
    Adds s { s' with graph := g }
      (.loop body ⟨s'.graph.next, test, none, test.temps⟩ .done) temps := by
  obtain ⟨_, _, rfl⟩ := Graph.connect_eq_ok hg
  have hheader : Code.header body ⟨s'.graph.next, test, none, test.temps⟩ = s.graph.next := by
    have := Code.head?_ids_eq_header ⟨s'.graph.next, test, none, test.temps⟩ hne
    rw [hids] at this
    exact (Option.some.inj this).symm
  refine ⟨fun c hc => ?_, h.temps_eq, h.cells_eq, ?_⟩
  · have hnode := (h.shows c hc).withNode test none test.temps
    rw [← hheader]
    exact hnode.connect
  · show s'.graph.next + 1 = _
    rw [h.next_eq, Code.ids_loop, List.length_append, Code.ids_done]
    rfl

/-- Lowering a loop, once its body is lowered and its condition prepared. -/
theorem Adds.connect_condition {s s₁ : Lowering} {body : List Statement}
    (hbody : Adds s s₁ (codeAll s.graph.cells body s.temps s.graph.next)
      (assignedAll s.graph.cells body s.temps))
    (hempty : ¬ body.isEmpty = true) (condition : Plan) {g : Graph}
    (hg : (s₁.graph.withNode (condition.bound s₁.temps) none (condition.bound s₁.temps).temps).connect
      s₁.graph.next s.graph.next = .ok g) :
    Adds s { s₁ with graph := g }
      ((doWhile body condition).code s.graph.cells s.temps s.graph.next)
      ((doWhile body condition).assigned s.graph.cells s.temps) := by
  have hids := ids_codeAll s.graph.cells body s.temps s.graph.next
  have hpos := sizeAll_pos hempty
  have hhead : (codeAll s.graph.cells body s.temps s.graph.next).ids.head? =
      some s.graph.next := by
    rw [hids, List.head?_range', if_neg (by omega)]
  have hne : codeAll s.graph.cells body s.temps s.graph.next ≠ .done := by
    intro e
    rw [e] at hhead
    cases hhead
  have hnext : s₁.graph.next = s.graph.next + sizeAll body := by
    rw [hbody.next_eq, hids, List.length_range']
  have := hbody.connect _ hne hhead hg
  rw [code, ← hnext, ← hbody.temps_eq]
  rw [assigned, ← hbody.temps_eq]
  exact ⟨this.shows, rfl, this.cells_eq, this.next_eq⟩

mutual

theorem statement_adds (st : Statement) {s s' : Lowering} (h : (statement st s).value = .ok s') :
    Adds s s' (st.code s.graph.cells s.temps s.graph.next) (st.assigned s.graph.cells s.temps) := by
  cases st with
  | assign target plan =>
      obtain ⟨q, scheme, hp, rfl⟩ := statement_assign_eq_ok h
      obtain ⟨rfl, hscheme⟩ := prepare_eq_ok hp
      rw [code, assigned, hscheme]
      exact adds_node s _ _ _ _
  | store key plan =>
      obtain ⟨q, scheme, hp, rfl⟩ := statement_store_eq_ok h
      obtain ⟨rfl, _⟩ := prepare_eq_ok hp
      exact adds_node s _ _ _ _
  | doWhile body condition =>
      obtain ⟨s₁, q, scheme, g, hempty, hb, hp, hg, rfl⟩ := statement_doWhile_eq_ok h
      obtain ⟨rfl, _⟩ := prepare_eq_ok hp
      exact (block_adds body hb).connect_condition hempty condition hg

theorem block_adds (l : List Statement) {s s' : Lowering} (h : (block l s).value = .ok s') :
    Adds s s' (codeAll s.graph.cells l s.temps s.graph.next)
      (assignedAll s.graph.cells l s.temps) := by
  cases l with
  | nil =>
      obtain rfl := Except.ok.inj h
      exact ⟨fun c hc => by rw [codeAll, Code.append_done]; exact hc, rfl, rfl, rfl⟩
  | cons first rest =>
      obtain ⟨s₁, hf, hr⟩ := block_cons_eq_ok h
      have hfirst := statement_adds first hf
      have hrest := block_adds rest hr
      rw [hfirst.temps_eq, hfirst.cells_eq, hfirst.next_eq, ids_code, List.length_range'] at hrest
      exact hfirst.trans hrest

end

end Lowering

/-! ### Programs -/

namespace Statement

mutual

theorem proper_code (cells : Cells) (s : Statement) (temps : Temps) (i : ℕ) :
    (s.code cells temps i).Proper := by
  cases s with
  | assign target plan =>
      exact Code.proper_step (Or.inl ⟨target, _, rfl, rfl⟩) (Plan.temps_unary _ _ _).symm
  | store key plan => exact Code.proper_step (Or.inr ⟨key, _, rfl, rfl⟩) (Plan.temps_unary _ _ _).symm
  | doWhile body condition => exact (proper_codeAll cells body temps i).loop rfl rfl

theorem proper_codeAll (cells : Cells) (l : List Statement) (temps : Temps) (i : ℕ) :
    (codeAll cells l temps i).Proper := by
  cases l with
  | nil => exact Code.proper_done
  | cons s rest =>
      exact (proper_code cells s temps i).append
        (proper_codeAll cells rest (s.assigned cells temps) (i + s.size))

end

end Statement

namespace Program

/-- The code of a program. -/
def code (p : Program) (cells : Cells) : Code := Statement.codeAll cells p.statements [] 0

theorem ids_code (p : Program) (cells : Cells) :
    (p.code cells).ids = List.range (Statement.sizeAll p.statements) := by
  rw [code, Statement.ids_codeAll, List.range_eq_range']

theorem toGraph_eq_ok {p : Program} {cells : Cells} {g : Graph}
    (h : (p.toGraph cells).value = .ok g) :
    ∃ temps, (Lowering.block p.statements ⟨{ Graph.empty with cells := cells }, []⟩).value =
      .ok ⟨g, temps⟩ := by
  rw [toGraph, Logged.value_bind] at h
  cases hb : (Lowering.block p.statements ⟨{ Graph.empty with cells := cells }, []⟩).value with
  | error e => rw [hb] at h; cases h
  | ok s =>
      rw [hb] at h
      obtain rfl := Except.ok.inj h
      exact ⟨s.temps, rfl⟩

/-- **The graph of a program shows its code.** -/
theorem toGraph_shows {p : Program} {cells : Cells} {g : Graph}
    (h : (p.toGraph cells).value = .ok g) : g.Shows (p.code cells) ∧ g.cells = cells := by
  obtain ⟨temps, hb⟩ := toGraph_eq_ok h
  have hadds := Lowering.block_adds p.statements hb
  have hempty : Graph.Shows { Graph.empty with cells := cells } .done := by
    refine ⟨rfl, fun e => ?_, (Graph.Built.empty cells).numbered⟩
    simp [Graph.empty, spine, Code.backs]
  exact ⟨hadds.shows .done hempty, hadds.cells_eq⟩

end Program

end Planner
