import Planner.Proofs.Flow.Passes
import Planner.Proofs.Program.Lowered

/-! # Plans of programs

`Statement.layout` is the list of plans of a statement, given for each number of a node its operator
in some graph, if the node is there: an assignment or a store is its operator, a loop is the loop of
its body's plans with the operator of its condition.  `Statement.required` lists the numbers of the
nodes that stores and conditions have.

Main statement: `compile_eq_layout`, a program that has a flow graph has a plan, whatever the
configuration, and the plan is the layout of the program in the graph that the passes leave. -/

namespace Planner

open Planner.Flow

/-- The operator of a node. -/
def Flow.Graph.op? (g : Graph) (i : ℕ) : Option Plan := (g.node? i).map Node.op

namespace Flow.Code

theorem plans_append (c d : Code) : (c.append d).plans = c.plans ++ d.plans := by
  induction c with
  | done => rfl
  | step n rest ih => simp [append, plans, ih]
  | loop body test rest _ ih => simp [append, plans, ih]

theorem view_append (c d : Code) (g : Graph) : (c.append d).view g = (c.view g).append (d.view g) :=
  rewrite_append _ c d

theorem plans_view_step (n : Node) (g : Graph) :
    ((step n done).view g).plans = (g.op? n.id).toList := by
  rw [view, rewrite, Graph.op?]
  cases g.node? n.id <;> rfl

theorem plans_view_loop {body : Code} {test : Node} {g : Graph} (h : (g.op? test.id).isSome) :
    ((loop body test done).view g).plans =
      ((g.op? test.id).map (Block.loop (body.view g).plans)).toList := by
  rw [Graph.op?, Option.isSome_map] at h
  obtain ⟨t, ht⟩ := Option.isSome_iff_exists.mp h
  rw [view, rewrite, plans, Graph.op?, ht]
  rfl

end Flow.Code

namespace Statement

/-! ### Layouts -/

mutual

/-- The plans of a statement whose first node has the number `i`. -/
def layout (op : ℕ → Option Plan) : Statement → ℕ → List Plan
  | assign _ _, i => (op i).toList
  | store _ _, i => (op i).toList
  | doWhile body _, i => ((op (i + sizeAll body)).map (Block.loop (layoutAll op body i))).toList

/-- The plans of several statements. -/
def layoutAll (op : ℕ → Option Plan) : List Statement → ℕ → List Plan
  | [], _ => []
  | s :: rest, i => layout op s i ++ layoutAll op rest (i + size s)

end

mutual

/-- The numbers of the stores and conditions of a statement whose first node has the number `i`. -/
def required : Statement → ℕ → List ℕ
  | assign _ _, _ => []
  | store _ _, i => [i]
  | doWhile body _, i => requiredAll body i ++ [i + sizeAll body]

/-- The numbers of the stores and conditions of several statements. -/
def requiredAll : List Statement → ℕ → List ℕ
  | [], _ => []
  | s :: rest, i => required s i ++ requiredAll rest (i + size s)

end

mutual

theorem target_of_mem_required (cells : Cells) (s : Statement) (temps : Temps) (i : ℕ) :
    ∀ j ∈ s.required i, ∃ n ∈ (s.code cells temps i).nodes, n.id = j ∧ n.target = none := by
  intro j hj
  cases s with
  | assign target plan => cases hj
  | store key plan =>
      rw [required, List.mem_singleton] at hj
      exact ⟨_, List.mem_cons_self, hj.symm, rfl⟩
  | doWhile body condition =>
      rw [required, List.mem_append, List.mem_singleton] at hj
      rw [code, Code.nodes]
      rcases hj with hj | hj
      · obtain ⟨n, hn, hid⟩ := target_of_mem_requiredAll cells body temps i j hj
        exact ⟨n, List.mem_append_left _ hn, hid⟩
      · exact ⟨_, List.mem_append_right _ List.mem_cons_self, hj.symm, rfl⟩

theorem target_of_mem_requiredAll (cells : Cells) (l : List Statement) (temps : Temps) (i : ℕ) :
    ∀ j ∈ requiredAll l i, ∃ n ∈ (codeAll cells l temps i).nodes, n.id = j ∧ n.target = none := by
  intro j hj
  cases l with
  | nil => cases hj
  | cons s rest =>
      rw [requiredAll, List.mem_append] at hj
      rw [codeAll, Code.nodes_append]
      rcases hj with hj | hj
      · obtain ⟨n, hn, hid⟩ := target_of_mem_required cells s temps i j hj
        exact ⟨n, List.mem_append_left _ hn, hid⟩
      · obtain ⟨n, hn, hid⟩ := target_of_mem_requiredAll cells rest _ _ j hj
        exact ⟨n, List.mem_append_right _ hn, hid⟩

end

mutual

/-- The layout of a statement is what is left of its code, if the conditions are there. -/
theorem layout_eq_plans (cells : Cells) {g : Graph} (s : Statement) (temps : Temps) (i : ℕ)
    (h : ∀ j ∈ s.required i, (g.op? j).isSome) :
    s.layout g.op? i = ((s.code cells temps i).view g).plans := by
  cases s with
  | assign target plan => rw [layout, code, Code.plans_view_step]
  | store key plan => rw [layout, code, Code.plans_view_step]
  | doWhile body condition =>
      rw [required] at h
      have htest := h (i + sizeAll body) (List.mem_append_right _ List.mem_cons_self)
      have hbody := layoutAll_eq_plans cells body temps i
        (fun j hj => h j (List.mem_append_left _ hj))
      rw [layout, code, Code.plans_view_loop htest, hbody]

theorem layoutAll_eq_plans (cells : Cells) {g : Graph} (l : List Statement) (temps : Temps) (i : ℕ)
    (h : ∀ j ∈ requiredAll l i, (g.op? j).isSome) :
    layoutAll g.op? l i = ((codeAll cells l temps i).view g).plans := by
  cases l with
  | nil => rfl
  | cons s rest =>
      rw [requiredAll] at h
      have hfirst := layout_eq_plans cells s temps i (fun j hj => h j (List.mem_append_left _ hj))
      have hrest := layoutAll_eq_plans cells rest (s.assigned cells temps) (i + s.size)
        (fun j hj => h j (List.mem_append_right _ hj))
      rw [layoutAll, codeAll, Code.view_append, Code.plans_append, hfirst, hrest]

end

end Statement

namespace Program

variable {p : Program} {cells : Cells} {g : Graph}

/-! ### Compiling -/

theorem toGraph_follows (h : (p.toGraph cells).value = .ok g) : g.Follows (p.code cells) :=
  (toGraph_shows h).1.follows (Statement.proper_codeAll cells p.statements [] 0)

/-- The plan of a program is the sequence of the plans that the passes leave of its code. -/
theorem compile_value (config : Config) (h : (p.toGraph cells).value = .ok g) :
    (p.compile cells config).value =
      .ok (.nary {} .sequence ((p.code cells).view (g.optimized config)).plans,
        (g.optimized config).cells) := by
  rw [compile, Logged.value_bind, h]
  simp only [Logged.value_bind, Graph.logicalPlan_value config (toGraph_follows h),
    Logged.value_pure]
  rfl

theorem isSome_op?_optimized (config : Config) (h : (p.toGraph cells).value = .ok g) :
    ∀ i ∈ Statement.requiredAll p.statements 0, ((g.optimized config).op? i).isSome := by
  intro i hi
  have hshows := (toGraph_shows h).1
  obtain ⟨n, hn, rfl, htarget⟩ := Statement.target_of_mem_requiredAll cells p.statements [] 0 i hi
  have hnode := hshows.numbered.node?_of_mem (hshows.nodes_eq ▸ hn)
  obtain ⟨m, hm, _⟩ := ((toGraph_follows h).optimized config).2.stays n.id n hnode htarget
  rw [Graph.op?, hm]
  rfl

theorem lt_of_isSome_op?_optimized (config : Config) (h : (p.toGraph cells).value = .ok g) {i : ℕ}
    (hi : ((g.optimized config).op? i).isSome) : i < Statement.sizeAll p.statements := by
  rw [Graph.op?, Option.isSome_map] at hi
  obtain ⟨n, hn⟩ := Option.isSome_iff_exists.mp hi
  obtain ⟨m, hm, _⟩ := ((toGraph_follows h).optimized config).2.origin i n hn
  obtain ⟨hmem, rfl⟩ := Graph.mem_of_node? hm
  have hids : m.id ∈ g.ids := List.mem_map_of_mem hmem
  rw [(toGraph_shows h).1.ids_eq, ids_code] at hids
  exact List.mem_range.mp hids

/-- **Structuring undoes lowering.**  A program with a flow graph has a plan, which is the layout of
the program in the graph that the passes leave: stores and conditions are all there, no node is new,
and without passes the nodes are those of the program's code. -/
theorem compile_eq_layout (config : Config) (h : (p.toGraph cells).value = .ok g) :
    let left := (g.logicalPlan config).value.1
    (p.compile cells config).value =
        .ok (.nary {} .sequence (Statement.layoutAll left.op? p.statements 0), left.cells) ∧
      g.nodes = (p.code cells).nodes ∧ g.ids = List.range (Statement.sizeAll p.statements) ∧
      (∀ i ∈ Statement.requiredAll p.statements 0, (left.op? i).isSome) ∧
      (∀ i, (left.op? i).isSome → i < Statement.sizeAll p.statements) ∧
      (config.deadCode = false ∧ config.chaining = false → left = g) := by
  intro left
  have hshows := (toGraph_shows h).1
  have hleft : left = g.optimized config := by
    simp only [left, Graph.logicalPlan_value config (toGraph_follows h)]
  have hrequired := isSome_op?_optimized config h
  rw [hleft]
  refine ⟨?_, hshows.nodes_eq, ?_, hrequired, fun i => lt_of_isSome_op?_optimized config h, ?_⟩
  · rw [compile_value config h, code, Statement.layoutAll_eq_plans cells p.statements [] 0 hrequired]
  · rw [hshows.ids_eq, ids_code]
  · rintro ⟨hdead, hchaining⟩
    simp [Graph.optimized, Graph.pruned, hdead, hchaining]

/-- Two loops that begin at the same node, an assignment that nothing reads, and one that is read
once, right behind it. -/
def nested : Program :=
  let x : Plan := .leaf {} (.scanTemp "x" .empty)
  let z : Plan := .leaf {} (.scanTemp "z" .empty)
  ⟨[.assign "x" (.leaf {} .singleton),
    .doWhile [.doWhile [.assign "y" x, .assign "z" x, .store ⟨"public", "adhoc", "r"⟩ z] x] x]⟩

theorem compile_eq_layout_nested : ∃ g left : Graph, (nested.toGraph .empty).value = .ok g ∧
    (nested.compile .empty {}).value =
      .ok (.nary {} .sequence (Statement.layoutAll left.op? nested.statements 0), left.cells) ∧
    ∀ i ∈ [3, 4, 5], (left.op? i).isSome := by
  have hgraph : ∃ g, (nested.toGraph .empty).value = .ok g := ⟨_, rfl⟩
  obtain ⟨g, h⟩ := hgraph
  obtain ⟨hplan, _, _, hrequired, _⟩ := compile_eq_layout {} h
  exact ⟨g, _, h, hplan, hrequired⟩

end Program

end Planner
