import Planner.Proofs.Plan.Schemes
import Planner.Proofs.Program.Lowered

/-! # Schemes in the order of the text

`Program.written` lists the plans of a program as they are written, one for each node of its graph.
`Binds` says how nodes come from written plans: from the first to the last, each node gives its reads
the schemes that are known so far (`Node.Prepared`), has a scheme itself, and makes it known for the
relation that it assigns (`Node.learn`).

Main statement: `toGraph_binds`, the nodes of a program's graph come from its plans in this way. -/

namespace Planner

open Planner.Flow

/-! ### Written plans -/

namespace Statement

mutual

/-- The plans of a statement as they are written, in the order of its nodes. -/
def written : Statement → List Plan
  | assign _ plan => [plan]
  | store _ plan => [plan]
  | doWhile body condition => writtenAll body ++ [condition]

/-- The plans of several statements as they are written. -/
def writtenAll : List Statement → List Plan
  | [] => []
  | s :: rest => written s ++ writtenAll rest

end

end Statement

/-- The plans of a program as they are written, in the order of the nodes. -/
def Program.written (p : Program) : List Plan := Statement.writtenAll p.statements

namespace Flow

/-! ### Nodes from written plans -/

variable {cells : Cells} {temps temps' temps'' : Temps} {plans plans' : List Plan}
  {nodes nodes' : List Node} {n : Node} {written : Plan} {scheme : Scheme}

/-- The schemes that are known behind a node with a scheme. -/
def Node.learn (n : Node) (scheme : Scheme) (temps : Temps) : Temps :=
  match n.target with
  | some name => (name, scheme) :: temps
  | none => temps

theorem Node.lookup_learn_self {name : String} (h : n.target = some name) :
    (n.learn scheme temps).lookup name = some scheme := by
  rw [learn, h, List.lookup_cons_self]

theorem Node.lookup_learn_of_ne {name : String} (h : n.target ≠ some name) :
    (n.learn scheme temps).lookup name = temps.lookup name := by
  unfold learn
  split
  · rename_i other hother
    have hne : (name == other) = false := by
      rw [beq_eq_false_iff_ne]
      exact fun e => h (e ▸ hother)
    rw [List.lookup_cons, hne]
  · rfl

theorem Node.lookup_learn_congr {name : String} (h : temps.lookup name = temps'.lookup name) :
    (n.learn scheme temps).lookup name = (n.learn scheme temps').lookup name := by
  by_cases htarget : n.target = some name
  · rw [lookup_learn_self htarget, lookup_learn_self htarget]
  · rw [lookup_learn_of_ne htarget, lookup_learn_of_ne htarget, h]

/-- The node's plan is a written one with known schemes at its reads, and it has a scheme. -/
structure Node.Prepared (cells : Cells) (temps : Temps) (written : Plan) (n : Node)
    (scheme : Scheme) : Prop where
  scans : List.Forall₂ (Plan.BoundBy temps) written.scans n.op.scans
  detached : written.detached = true → n.op.detached = true
  scheme_eq : n.op.scheme cells = .ok scheme

/-- Nodes come from written plans one after the other, from schemes that are known to those that are
known behind them. -/
inductive Binds (cells : Cells) : Temps → List Plan → List Node → Temps → Prop
  | nil (temps : Temps) : Binds cells temps [] [] temps
  | cons {temps temps' : Temps} {written : Plan} {plans : List Plan} {n : Node} {nodes : List Node}
      {scheme : Scheme} (first : n.Prepared cells temps written scheme)
      (rest : Binds cells (n.learn scheme temps) plans nodes temps') :
      Binds cells temps (written :: plans) (n :: nodes) temps'

theorem Node.Prepared.binds (h : n.Prepared cells temps written scheme) :
    Binds cells temps [written] [n] (n.learn scheme temps) :=
  .cons h (.nil _)

theorem Binds.append (h : Binds cells temps plans nodes temps')
    (h' : Binds cells temps' plans' nodes' temps'') :
    Binds cells temps (plans ++ plans') (nodes ++ nodes') temps'' := by
  induction h with
  | nil => exact h'
  | cons first _ ih => exact .cons first (ih h')

end Flow

/-! ### Lowering -/

namespace Lowering

open Statement

/-- A node made from a prepared plan. -/
theorem prepared_of_prepare {s : Lowering} {p q op : Plan} {scheme : Scheme}
    (h : s.prepare p = .ok (q, scheme)) (i : ℕ) (target : Option String) (hscans : op.scans = q.scans)
    (hdetached : op.detached = q.detached) (hscheme : op.scheme s.graph.cells = q.scheme s.graph.cells) :
    Node.Prepared s.graph.cells s.temps p ⟨i, op, target, q.temps⟩ scheme := by
  obtain ⟨hbind, hq⟩ := bindTemps_of_prepare h
  refine ⟨?_, fun hp => ?_, hscheme.trans hq⟩
  · show List.Forall₂ _ p.scans op.scans
    rw [hscans]
    exact Plan.scans_bindTemps hbind
  · show op.detached = true
    rw [hdetached]
    exact Plan.detached_bindTemps hbind hp

/-- The nodes that lowering adds come from the written plans. -/
structure Prepares (s s' : Lowering) (plans : List Plan) : Prop where
  cells_eq : s'.graph.cells = s.graph.cells
  nodes_eq : ∃ nodes, s'.graph.nodes = s.graph.nodes ++ nodes ∧
    Binds s.graph.cells s.temps plans nodes s'.temps

theorem Prepares.trans {s s' s'' : Lowering} {plans plans' : List Plan}
    (h : Prepares s s' plans) (h' : Prepares s' s'' plans') : Prepares s s'' (plans ++ plans') := by
  obtain ⟨nodes, hnodes, hbinds⟩ := h.nodes_eq
  obtain ⟨nodes', hnodes', hbinds'⟩ := h'.nodes_eq
  refine ⟨h'.cells_eq.trans h.cells_eq, nodes ++ nodes', ?_, ?_⟩
  · rw [hnodes', hnodes, List.append_assoc]
  · rw [h.cells_eq] at hbinds'
    exact hbinds.append hbinds'

mutual

theorem statement_prepares (st : Statement) {s s' : Lowering}
    (h : (statement st s).value = .ok s') : Prepares s s' st.written := by
  cases st with
  | assign target plan =>
      obtain ⟨q, scheme, hp, rfl⟩ := statement_assign_eq_ok h
      exact ⟨rfl, _, rfl, (prepared_of_prepare hp _ (some target) (Plan.scans_unary _ _ _)
        (Plan.detached_unary _ _ _) rfl).binds⟩
  | store key plan =>
      obtain ⟨q, scheme, hp, rfl⟩ := statement_store_eq_ok h
      exact ⟨rfl, _, rfl, (prepared_of_prepare hp _ none (Plan.scans_unary _ _ _)
        (Plan.detached_unary _ _ _) rfl).binds⟩
  | doWhile body condition =>
      obtain ⟨s₁, q, scheme, g, _, hb, hp, hg, rfl⟩ := statement_doWhile_eq_ok h
      obtain ⟨_, _, rfl⟩ := Graph.connect_eq_ok hg
      refine (block_prepares body hb).trans ⟨rfl, _, rfl, ?_⟩
      exact (prepared_of_prepare hp _ none rfl rfl rfl).binds

theorem block_prepares (l : List Statement) {s s' : Lowering} (h : (block l s).value = .ok s') :
    Prepares s s' (writtenAll l) := by
  cases l with
  | nil =>
      obtain rfl := Except.ok.inj h
      exact ⟨rfl, [], (List.append_nil _).symm, .nil _⟩
  | cons first rest =>
      obtain ⟨s₁, hf, hr⟩ := block_cons_eq_ok h
      exact (statement_prepares first hf).trans (block_prepares rest hr)

end

end Lowering

/-- **The nodes of a program's graph come from its plans in the order of the text.** -/
theorem Program.toGraph_binds {p : Program} {cells : Cells} {g : Graph}
    (h : (p.toGraph cells).value = .ok g) :
    ∃ temps, Binds cells [] p.written g.nodes temps := by
  obtain ⟨temps, hb⟩ := toGraph_eq_ok h
  obtain ⟨nodes, hnodes, hbinds⟩ := (Lowering.block_prepares p.statements hb).nodes_eq
  refine ⟨temps, ?_⟩
  rw [show g.nodes = nodes from hnodes]
  exact hbinds

end Planner
