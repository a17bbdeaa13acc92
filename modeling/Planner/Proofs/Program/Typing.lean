import Planner.Proofs.Flow.Threaded
import Planner.Proofs.Program.Binding
import Planner.Proofs.Program.Structure

/-! # Schemes through the passes

Nodes are typed (`TypedAll`) if, one after the other in the order of the text, each has the scheme that
is given for its number and each of its reads has the scheme of the latest assignment that is still
there.  Known schemes may change for relations that are not read before they are assigned again
(`TypedAll.weaken`), which is all that a deletion of a dead node does to the nodes behind it
(`typedAll_deadStep`).  Where a node is moved into the next one, the reads that its plan takes the
place of have the scheme of the plan (`typedAll_fuseStep`).

Main statement: `schemes_kept`, if reads are written without schemes and no state reads a cell, then
every node that the passes leave has the scheme that it had before them, and so has every statement
and every condition of the program's plan. -/

namespace Planner

open Planner.Flow

namespace Flow

variable {schemes : ℕ → Scheme} {temps temps' : Temps} {cells : Cells} {plans : List Plan}
  {pre post nodes nodes' : List Node} {a b n : Node} {name : String}

/-! ### Typed nodes -/

/-- The reads of a node have the schemes that are known, none of its states reads a cell, and its
scheme is the one that is given for its number. -/
structure Node.Typed (schemes : ℕ → Scheme) (temps : Temps) (n : Node) : Prop where
  reads : ∀ read ∈ n.op.scans, temps.lookup read.1 = some read.2
  detached : n.op.detached = true
  scheme_eq : ∀ cells, n.op.scheme cells = .ok (schemes n.id)

/-- Nodes are typed one after the other, each with what is known behind those before it. -/
def TypedAll (schemes : ℕ → Scheme) : Temps → List Node → Prop
  | _, [] => True
  | temps, n :: rest => n.Typed schemes temps ∧ TypedAll schemes (n.learn (schemes n.id) temps) rest

theorem TypedAll.exists_typed (h : TypedAll schemes temps nodes) (hn : n ∈ nodes) :
    ∃ temps', n.Typed schemes temps' := by
  induction nodes generalizing temps with
  | nil => cases hn
  | cons m rest ih =>
      rcases List.mem_cons.mp hn with rfl | hn
      · exact ⟨temps, h.1⟩
      · exact ih h.2 hn

theorem TypedAll.weaken (h : TypedAll schemes temps nodes) (huses : ∀ n ∈ nodes, n.uses = n.op.temps)
    (hknown : ∀ x, temps.lookup x = temps'.lookup x ∨ Graph.Unread x nodes) :
    TypedAll schemes temps' nodes := by
  induction nodes generalizing temps temps' with
  | nil => trivial
  | cons n rest ih =>
      obtain ⟨hn, hrest⟩ := h
      refine ⟨⟨fun read hread => ?_, hn.detached, hn.scheme_eq⟩, ih hrest ?_ fun x => ?_⟩
      · rcases hknown read.1 with heq | hunread
        · rw [← heq]
          exact hn.reads read hread
        · have hmem : read.1 ∈ n.uses := by
            rw [huses n List.mem_cons_self]
            exact Plan.mem_temps_iff_scans.mpr ⟨read.2, hread⟩
          exact absurd hmem hunread.1
      · exact fun m hm => huses m (List.mem_cons_of_mem n hm)
      · rcases hknown x with heq | hunread
        · exact Or.inl (Node.lookup_learn_congr heq)
        · refine hunread.2.imp_left (fun htarget => ?_)
          rw [Node.lookup_learn_self htarget, Node.lookup_learn_self htarget]

theorem TypedAll.append_imp
    (himp : ∀ temps, TypedAll schemes temps nodes → TypedAll schemes temps nodes')
    (h : TypedAll schemes temps (pre ++ nodes)) : TypedAll schemes temps (pre ++ nodes') := by
  induction pre generalizing temps with
  | nil => exact himp temps h
  | cons n rest ih => exact ⟨h.1, ih h.2⟩

theorem Binds.typedAll (h : Binds cells temps plans nodes temps')
    (hwritten : ∀ p ∈ plans, ∀ read ∈ p.scans, read.2.isEmpty = true)
    (hdetached : ∀ p ∈ plans, p.detached = true)
    (hschemes : ∀ n ∈ nodes, ∀ scheme, n.op.scheme cells = .ok scheme → schemes n.id = scheme) :
    TypedAll schemes temps nodes := by
  induction h with
  | nil => trivial
  | @cons temps temps' written plans n nodes scheme first rest ih =>
      rw [List.forall_mem_cons] at hwritten hdetached hschemes
      have hscheme := hschemes.1 scheme first.scheme_eq
      have hn := first.detached hdetached.1
      refine ⟨⟨fun read hread => ?_, hn, fun cells' => ?_⟩, ?_⟩
      · obtain ⟨source, hsource, hbound⟩ := exists_mem_of_forall₂ first.scans hread
        rw [hbound.name_eq]
        exact hbound.found (hwritten.1 source hsource)
      · rw [Plan.scheme_of_detached hn cells' cells, first.scheme_eq, hscheme]
      · rw [hscheme]
        exact ih hwritten.2 hdetached.2 hschemes.2

namespace Graph

variable {g h : Graph} {c : Code}

/-! ### Steps -/

/-- Deleting a dead node keeps the others typed: what it assigns is not read behind it. -/
theorem typedAll_deadStep (hg : g.Follows c) (hstep : g.DeadStep h)
    (ht : TypedAll schemes [] g.nodes) : TypedAll schemes [] h.nodes := by
  obtain ⟨n, hn, hdead, rfl⟩ := hstep
  obtain ⟨name, htarget, hname⟩ := isDead_iff.mp hdead
  obtain ⟨pre, post, hnodes⟩ := List.append_of_mem hn
  have hthreaded := hg.shows.threaded
  rw [hthreaded.numbered.nodes_without hnodes]
  rw [hnodes] at ht
  refine TypedAll.append_imp (fun temps ht => ?_) ht
  refine ht.2.weaken (fun m hm => ?_) (fun x => ?_)
  · exact hg.proper.uses_eq m (hg.shows.nodes_eq ▸ by simp [hnodes, hm])
  · by_cases hx : x = name
    · exact Or.inr (hx ▸ hthreaded.unread hnodes hname)
    · exact Or.inl (Node.lookup_learn_of_ne (target_ne htarget hx))

/-- A plan that takes the place of reads with its scheme keeps the reader typed; what is assigned is
not read behind the reader. -/
theorem typedAll_absorbed {p : Plan} (hop : a.op = .unary {} (.storeTemp name) p)
    (htarget : a.target = some name) (huses : ∀ n ∈ post, n.uses = n.op.temps)
    (hunread : Unread name post) (h : TypedAll schemes temps (a :: b :: post)) :
    TypedAll schemes temps (g.absorbed a b name :: post) := by
  obtain ⟨ha, hb, hpost⟩ := h
  have hdetached : p.detached = true := by
    have := ha.detached
    rwa [hop, Plan.detached_unary] at this
  refine ⟨⟨fun read hread => ?_, ?_, fun cells => ?_⟩, ?_⟩
  · rw [absorbed, stored_eq hop] at hread
    rcases Plan.mem_scans_substitute hread with ⟨hread, hne⟩ | hread
    · rw [← hb.reads read hread, Node.lookup_learn_of_ne (target_ne htarget hne)]
    · refine ha.reads read ?_
      rwa [hop, Plan.scans_unary]
  · rw [absorbed, stored_eq hop]
    exact Plan.detached_substitute hb.detached hdetached name g.cells
  · rw [absorbed, stored_eq hop]
    refine (Plan.scheme_substitute hb.detached hdetached (fun scheme hread => ?_) g.cells).trans
      (hb.scheme_eq cells)
    have hknown := hb.reads _ hread
    rw [Node.lookup_learn_self htarget] at hknown
    have hscheme := ha.scheme_eq cells
    rw [hop] at hscheme
    exact hscheme.trans (congrArg _ (Option.some.inj hknown))
  · refine hpost.weaken huses (fun x => ?_)
    by_cases hx : x = name
    · exact Or.inr (hx ▸ hunread)
    · refine Or.inl ?_
      show (b.learn (schemes b.id) _).lookup x = (b.learn (schemes b.id) temps).lookup x
      exact Node.lookup_learn_congr (Node.lookup_learn_of_ne (target_ne htarget hx))

theorem typedAll_fuseStep (hg : g.Follows c) (hstep : g.FuseStep h)
    (ht : TypedAll schemes [] g.nodes) : TypedAll schemes [] h.nodes := by
  obtain ⟨a, b, name, hj, rfl⟩ := hstep
  have hthreaded := hg.shows.threaded
  obtain ⟨pre, post, hnodes⟩ := hj.nodes_eq hthreaded.numbered
  obtain ⟨p, hop⟩ := hg.proper.op_eq (hg.shows.nodes_eq ▸ hj.writer_mem) hj.target
  have hreader : g.nodes = (pre ++ [a]) ++ b :: post := by simp [hnodes]
  rw [hthreaded.numbered.nodes_fused hnodes]
  rw [hnodes] at ht
  refine TypedAll.append_imp (fun temps ht => ?_) ht
  refine typedAll_absorbed hop hj.target (fun m hm => ?_) (hthreaded.unread hreader hj.dead) ht
  exact hg.proper.uses_eq m (hg.shows.nodes_eq ▸ by simp [hnodes, hm])

theorem typedAll_run {S : Graph → Graph → Prop} (hS : ∀ g h, g.Follows c → S g h → h.Follows c)
    (hT : ∀ g h, g.Follows c → S g h → TypedAll schemes [] g.nodes → TypedAll schemes [] h.nodes)
    (hg : g.Follows c) (hrun : Relation.ReflTransGen S g h) (ht : TypedAll schemes [] g.nodes) :
    h.Follows c ∧ TypedAll schemes [] h.nodes := by
  induction hrun with
  | refl => exact ⟨hg, ht⟩
  | tail _ hstep ih => exact ⟨hS _ _ ih.1 hstep, hT _ _ ih.1 hstep ih.2⟩

theorem typedAll_optimized (config : Config) (hg : g.Follows c) (ht : TypedAll schemes [] g.nodes) :
    TypedAll schemes [] (g.optimized config).nodes := by
  obtain ⟨hpruned, htyped⟩ := typedAll_run (fun _ _ => Follows.of_deadStep)
    (fun _ _ => typedAll_deadStep) hg (pruned_steps config g).1 ht
  exact (typedAll_run (fun _ _ => Follows.of_fuseStep) (fun _ _ => typedAll_fuseStep) hpruned
    (optimized_steps config hpruned).1 htyped).2

/-- The scheme of the node with a number. -/
def schemeOf (g : Graph) (i : ℕ) : Scheme :=
  ((g.node? i).bind (fun n => (n.op.scheme g.cells).toOption)).getD .empty

theorem Numbered.schemeOf_eq (hg : g.Numbered) (hn : n ∈ g.nodes) {scheme : Scheme}
    (hscheme : n.op.scheme g.cells = .ok scheme) : g.schemeOf n.id = scheme := by
  rw [schemeOf, hg.node?_of_mem hn, Option.bind_some, hscheme]
  rfl

end Graph

end Flow

/-! ### Statements of a plan -/

namespace Plan

mutual

/-- The statements of a plan that is made of them, and the conditions of its loops, in order. -/
def statements : Plan → List Plan
  | nary _ .sequence plans => statementsAll plans
  | binary _ .doWhile body condition => statements body ++ [condition]
  | p => [p]

/-- The statements and conditions of several plans. -/
def statementsAll : List Plan → List Plan
  | [] => []
  | p :: rest => statements p ++ statementsAll rest

end

end Plan

theorem Flow.Code.statementsAll_plans {c : Code} (hc : ∀ n ∈ c.steps, n.IsStatement) :
    Plan.statementsAll c.plans = c.nodes.map Node.op := by
  induction c with
  | done => rfl
  | step n rest ih =>
      rw [steps, List.forall_mem_cons] at hc
      obtain ⟨op, p, hop⟩ := hc.1.exists_unary
      rw [plans, Plan.statementsAll, ih hc.2, nodes, List.map_cons, hop]
      rfl
  | loop body test rest ihb ihr =>
      rw [steps, List.forall_mem_append] at hc
      rw [plans, Plan.statementsAll, ihr hc.2, nodes, List.map_append, List.map_cons, ← ihb hc.1]
      exact (List.append_cons _ _ _).symm

namespace Program

variable {p : Program} {cells : Cells} {g : Graph}

theorem typedAll_toGraph (h : (p.toGraph cells).value = .ok g)
    (hwritten : ∀ q ∈ p.written, ∀ read ∈ q.scans, read.2.isEmpty = true)
    (hdetached : ∀ q ∈ p.written, q.detached = true) : TypedAll g.schemeOf [] g.nodes := by
  obtain ⟨temps, hbinds⟩ := toGraph_binds h
  obtain ⟨hshows, hcells⟩ := toGraph_shows h
  refine hbinds.typedAll hwritten hdetached (fun n hn scheme hscheme => ?_)
  exact hshows.numbered.schemeOf_eq hn (hcells ▸ hscheme)

/-- **The passes keep every scheme.**  If reads are written without schemes and no state reads a cell,
each node that the passes leave has the scheme that it had in the program's graph.  The statements
and conditions of the program's plan are the operators of these nodes, so they have schemes. -/
theorem schemes_kept (config : Config) (h : (p.toGraph cells).value = .ok g)
    (hwritten : ∀ q ∈ p.written, ∀ read ∈ q.scans, read.2.isEmpty = true)
    (hdetached : ∀ q ∈ p.written, q.detached = true) :
    let left := (g.logicalPlan config).value.1
    (∀ n ∈ left.nodes, ∃ m ∈ g.nodes, m.id = n.id ∧ ∃ scheme,
        m.op.scheme g.cells = .ok scheme ∧ n.op.scheme left.cells = .ok scheme) ∧
      ∃ plan, (p.compile cells config).value = .ok (plan, left.cells) ∧
        plan.statements = left.nodes.map Node.op ∧
        ∀ q ∈ plan.statements, ∃ scheme, q.scheme left.cells = .ok scheme := by
  intro left
  have hfollows := toGraph_follows h
  have hleft : left = g.optimized config := by
    simp only [left, Graph.logicalPlan_value config hfollows]
  obtain ⟨hoptimized, hkeeps⟩ := hfollows.optimized config
  have htyped := typedAll_toGraph h hwritten hdetached
  have hkept : ∀ n ∈ left.nodes, ∃ m ∈ g.nodes, m.id = n.id ∧ ∃ scheme,
      m.op.scheme g.cells = .ok scheme ∧ n.op.scheme left.cells = .ok scheme := by
    rw [hleft]
    intro n hn
    obtain ⟨m, hm, _⟩ := hkeeps.origin n.id n (hoptimized.shows.numbered.node?_of_mem hn)
    obtain ⟨hmem, hid⟩ := Graph.mem_of_node? hm
    obtain ⟨_, hbefore⟩ := htyped.exists_typed hmem
    obtain ⟨_, hafter⟩ := (Graph.typedAll_optimized config hfollows htyped).exists_typed hn
    refine ⟨m, hmem, hid, g.schemeOf n.id, ?_, hafter.scheme_eq _⟩
    rw [← hid]
    exact hbefore.scheme_eq g.cells
  have hplan : (Plan.nary {} .sequence ((p.code cells).view left).plans).statements =
      left.nodes.map Node.op := by
    rw [Plan.statements, hleft, Flow.Code.statementsAll_plans hoptimized.proper.statements,
      hoptimized.shows.nodes_eq]
  refine ⟨hkept, _, ?_, hplan, ?_⟩
  · rw [compile_value config h, hleft]
  · rw [hplan, List.forall_mem_map]
    intro n hn
    obtain ⟨_, _, _, scheme, _, hscheme⟩ := hkept n hn
    exact ⟨scheme, hscheme⟩

/-- A relation that is assigned anew from itself, which the passes make part of the store, and an
assignment that nothing reads. -/
def narrowed : Program :=
  let x : Plan := .leaf {} (.scanTemp "x" .empty)
  ⟨[.assign "x" (.leaf {} (.scan ⟨"public", "adhoc", "R"⟩ ⟨[.named "a" .int, .named "b" .string]⟩)),
    .assign "y" x, .assign "x" (.unary {} (.project [.name "b"]) x),
    .store ⟨"public", "adhoc", "out"⟩ x]⟩

theorem schemes_kept_narrowed : ∃ (g left : Graph) (plan : Plan), (narrowed.toGraph .empty).value = .ok g ∧
    (narrowed.compile .empty {}).value = .ok (plan, left.cells) ∧
    (∀ n ∈ left.nodes, ∃ m ∈ g.nodes, m.id = n.id ∧ ∃ scheme,
      m.op.scheme g.cells = .ok scheme ∧ n.op.scheme left.cells = .ok scheme) ∧
    ∀ q ∈ plan.statements, ∃ scheme, q.scheme left.cells = .ok scheme := by
  have hgraph : ∃ g, (narrowed.toGraph .empty).value = .ok g := ⟨_, rfl⟩
  obtain ⟨g, h⟩ := hgraph
  obtain ⟨hkept, plan, hplan, _, hstatements⟩ := schemes_kept {} h (by decide) (by decide)
  exact ⟨g, _, plan, h, hplan, hkept, hstatements⟩

end Program

end Planner
