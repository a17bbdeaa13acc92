import Planner.Proofs.Flow.History

/-! # Outlines of plans

An `Outline` is the plan of a graph before the nodes and loops in it are forgotten: it keeps the nodes
themselves, and for each loop the node at which its block was opened and the one that closed it.  A
`Walk` is the state of structuring with outlines in the blocks, and the steps on walks are the steps on
stacks of blocks (`Walk.enter_value`), so the plan of a graph is that of its outline
(`toPlan_eq_ok_iff`).

A walk goes on as long as no node closes more loops than are open (`Walk.isSome_visitAll_iff`).  The
edges that do not lead to the next node (`Graph.jumps`) are those that open and close loops
(`Represented.loopsOpened`, `Represented.loopsClosed`), so in the end as many loops were opened as
closed.  Main statement: `toPlan_ok_iff_balanced`, structuring succeeds exactly if no node closes more
loops than were opened up to it, and then the plan lists the nodes in order. -/

namespace Planner.Flow

/-! ### Outlines -/

/-- Nodes and loops in order, each loop with the number of the node at which it was opened. -/
inductive Outline
  | done
  | node (n : Node) (rest : Outline)
  | loop (header : ℕ) (body : Outline) (test : Node) (rest : Outline)

namespace Outline

/-- One outline behind another. -/
def append : Outline → Outline → Outline
  | done, o => o
  | node n rest, o => node n (append rest o)
  | loop header body test rest, o => loop header body test (append rest o)

/-- The nodes from left to right, the body of a loop before its test. -/
def nodes : Outline → List Node
  | done => []
  | node n rest => n :: nodes rest
  | loop _ body test rest => nodes body ++ test :: nodes rest

/-- The plans, with a loop for each loop. -/
def plans : Outline → List Plan
  | done => []
  | node n rest => n.op :: plans rest
  | loop _ body test rest => Block.loop (plans body) test.op :: plans rest

/-- For each loop the edge from the node that closed it to the node at which it was opened. -/
def loops : Outline → List Edge
  | done => []
  | node _ rest => loops rest
  | loop header body test rest => ⟨test.id, header⟩ :: (loops body ++ loops rest)

variable (o q : Outline)

@[simp] theorem nodes_append : (o.append q).nodes = o.nodes ++ q.nodes := by
  induction o with
  | done => rfl
  | node n rest ih => simp [append, nodes, ih]
  | loop header body test rest _ ih => simp [append, nodes, ih]

@[simp] theorem plans_append : (o.append q).plans = o.plans ++ q.plans := by
  induction o with
  | done => rfl
  | node n rest ih => simp [append, plans, ih]
  | loop header body test rest _ ih => simp [append, plans, ih]

@[simp] theorem loops_append : (o.append q).loops = o.loops ++ q.loops := by
  induction o with
  | done => rfl
  | node n rest ih => simp [append, loops, ih]
  | loop header body test rest _ ih => simp [append, loops, ih]

end Outline

/-! ### Walks -/

/-- The open blocks, with outlines of what they hold: the loops with the nodes at which they were
opened, the innermost first, and the outermost block. -/
structure Walk where
  opened : List (ℕ × Outline)
  outer : Outline

namespace Walk

variable {g : Graph} {w w' : Walk} {n : Node} {o : Outline} {count : ℕ} {ns : List Node}

/-- The blocks without the nodes at which they were opened. -/
def stack (w : Walk) : List Block :=
  w.opened.map (fun b => ⟨true, b.2.plans⟩) ++ [⟨false, w.outer.plans⟩]

/-- Adds an outline to the innermost block. -/
def push (o : Outline) (w : Walk) : Walk :=
  match w.opened with
  | [] => { w with outer := w.outer.append o }
  | b :: rest => { w with opened := (b.1, b.2.append o) :: rest }

/-- Opens a number of loops at a node. -/
def openAll (id count : ℕ) (w : Walk) : Walk :=
  { w with opened := List.replicate count (id, .done) ++ w.opened }

/-- Closes a number of loops, the innermost first. -/
def closeAll (n : Node) : ℕ → Walk → Option Walk
  | 0, w => some w
  | count + 1, w =>
    match w.opened with
    | [] => none
    | b :: rest => closeAll n count (push (.loop b.1 b.2 n .done) { w with opened := rest })

/-- Visits a node. -/
def visit (g : Graph) (n : Node) (w : Walk) : Option Walk :=
  let w := w.openAll n.id (g.loopsOpened n.id)
  match g.loopsClosed n.id with
  | 0 => some (w.push (.node n .done))
  | count => w.closeAll n count

/-- Visits several nodes. -/
def visitAll (g : Graph) : List Node → Walk → Option Walk
  | [], w => some w
  | n :: rest, w => (w.visit g n).bind (visitAll g rest)

/-! ### Walks and stacks of blocks -/

theorem push_stack {p : Plan} (h : o.plans = [p]) : Block.push p w.stack = some (w.push o).stack := by
  obtain ⟨opened, outer⟩ := w
  cases opened <;> simp [stack, push, Block.push, h]

theorem stack_openAll (id count : ℕ) (w : Walk) :
    (w.openAll id count).stack = List.replicate count ⟨true, []⟩ ++ w.stack := by
  simp [stack, openAll, Outline.plans]

/-- A walk that cannot go on stops at a node that ends a loop that was never opened. -/
def outcome (n : Node) : Option Walk → Except PlanError (List Block)
  | some w => .ok w.stack
  | none => .error (.unbalancedLoops (.neverOpened n.id))

theorem closeAll_value (n : Node) (count : ℕ) (w : Walk) :
    (Block.closeAll n.id n.op count w.stack).value = outcome n (w.closeAll n count) := by
  induction count generalizing w with
  | zero => rfl
  | succ count ih =>
      obtain ⟨opened, outer⟩ := w
      cases opened with
      | nil => rfl
      | cons b rest =>
          have hpush : Block.push (Block.loop b.2.plans n.op) (Walk.mk rest outer).stack = _ :=
            push_stack (o := .loop b.1 b.2 n .done) rfl
          have hclose : Block.close n.id n.op (Walk.mk (b :: rest) outer).stack =
              .ok (push (.loop b.1 b.2 n .done) ⟨rest, outer⟩).stack := by
            show Block.close n.id n.op (⟨true, b.2.plans⟩ :: (Walk.mk rest outer).stack) = _
            rw [Block.close, hpush]
          rw [Block.closeAll, Logged.value_bind, hclose, closeAll]
          exact ih _

/-- Visiting a node does to the stack of blocks what it does to the walk. -/
theorem enter_value (g : Graph) (n : Node) (w : Walk) :
    (g.enter n w.stack).value = outcome n (w.visit g n) := by
  rw [Graph.enter, Logged.value_bind, Block.openAll_value, ← stack_openAll n.id, visit]
  cases g.loopsClosed n.id with
  | zero =>
      have hpush := push_stack (w := w.openAll n.id (g.loopsOpened n.id)) (o := .node n .done) rfl
      simp only [Logged.value_bind, Logged.value_pure]
      rw [hpush]
      rfl
  | succ count => exact closeAll_value n _ _

theorem enterAll_of_some (h : w.visitAll g ns = some w') :
    (g.enterAll ns w.stack).value = .ok w'.stack := by
  induction ns generalizing w with
  | nil =>
      obtain rfl := Option.some.inj h
      rfl
  | cons n rest ih =>
      obtain ⟨v, hv, hrest⟩ := Option.bind_eq_some_iff.mp h
      rw [Graph.enterAll, Logged.value_bind, enter_value, hv]
      exact ih hrest

theorem enterAll_of_none (h : w.visitAll g ns = none) :
    ∃ n ∈ ns, (g.enterAll ns w.stack).value = .error (.unbalancedLoops (.neverOpened n.id)) := by
  induction ns generalizing w with
  | nil => cases h
  | cons n rest ih =>
      rw [visitAll] at h
      rw [Graph.enterAll, Logged.value_bind, enter_value]
      cases hv : w.visit g n with
      | none => exact ⟨n, List.mem_cons_self, rfl⟩
      | some v =>
          rw [hv] at h
          obtain ⟨m, hm, hvalue⟩ := ih h
          exact ⟨m, List.mem_cons_of_mem n hm, hvalue⟩

/-! ### What a visit does -/

/-- The nodes at which the open loops were opened, the innermost first. -/
def headers (w : Walk) : List ℕ := w.opened.map Prod.fst

/-- The loops that were closed. -/
def loops (w : Walk) : List Edge := w.opened.flatMap (·.2.loops) ++ w.outer.loops

/-- The nodes that were listed. -/
def nodes (w : Walk) : List Node := w.outer.nodes ++ w.opened.reverse.flatMap (·.2.nodes)

theorem headers_push : (w.push o).headers = w.headers := by
  obtain ⟨opened, outer⟩ := w
  cases opened <;> rfl

theorem loops_push : (w.push o).loops.Perm (o.loops ++ w.loops) := by
  obtain ⟨opened, outer⟩ := w
  cases opened with
  | nil =>
      simp only [push, loops, Outline.loops_append, List.flatMap_nil, List.nil_append]
      exact List.perm_append_comm
  | cons b rest =>
      simp only [push, loops, Outline.loops_append, List.flatMap_cons, List.append_assoc]
      exact List.perm_append_comm_assoc _ _ _

theorem nodes_push : (w.push o).nodes = w.nodes ++ o.nodes := by
  obtain ⟨opened, outer⟩ := w
  cases opened <;> simp [push, nodes]

theorem closeAll_spec (h : w.closeAll n count = some w') :
    w'.headers = w.headers.drop count ∧
      w'.loops.Perm ((w.headers.take count).map (fun header => ⟨n.id, header⟩) ++ w.loops) ∧
      w'.nodes = w.nodes ++ List.replicate count n := by
  induction count generalizing w with
  | zero =>
      obtain rfl := Option.some.inj h
      simp
  | succ count ih =>
      obtain ⟨opened, outer⟩ := w
      cases opened with
      | nil => cases h
      | cons b rest =>
          obtain ⟨hheaders, hloops, hnodes⟩ := ih h
          rw [headers_push] at hheaders hloops
          rw [nodes_push] at hnodes
          refine ⟨hheaders, hloops.trans ?_, ?_⟩
          · -- the loop that was closed first comes to the front
            refine (loops_push.append_left _).trans ?_
            simp only [Outline.loops, headers, loops, List.map_cons, List.take_succ_cons,
              List.flatMap_cons, List.append_assoc, List.cons_append, List.nil_append]
            exact List.perm_middle
          · rw [hnodes]
            simp [nodes, Outline.nodes, List.replicate_succ]

theorem isSome_closeAll_iff : (w.closeAll n count).isSome ↔ count ≤ w.headers.length := by
  induction count generalizing w with
  | zero => simp [closeAll]
  | succ count ih =>
      obtain ⟨opened, outer⟩ := w
      cases opened with
      | nil => simp [closeAll, headers]
      | cons b rest =>
          rw [closeAll, ih, headers_push]
          simp [headers]

/-- The headers of the open loops once a node has opened its own. -/
def headersAt (g : Graph) (n : Node) (w : Walk) : List ℕ :=
  List.replicate (g.loopsOpened n.id) n.id ++ w.headers

theorem headers_openAll (g : Graph) (n : Node) (w : Walk) :
    (w.openAll n.id (g.loopsOpened n.id)).headers = w.headersAt g n := by
  simp [openAll, headers, headersAt]

/-- A node opens its loops, closes the innermost ones and is listed once for each that it closes, or
once if it closes none. -/
theorem visit_spec (h : w.visit g n = some w') :
    w'.headers = (w.headersAt g n).drop (g.loopsClosed n.id) ∧
      w'.loops.Perm (((w.headersAt g n).take (g.loopsClosed n.id)).map
        (fun header => ⟨n.id, header⟩) ++ w.loops) ∧
      w'.nodes = w.nodes ++ List.replicate (max 1 (g.loopsClosed n.id)) n := by
  have hloops : (w.openAll n.id (g.loopsOpened n.id)).loops = w.loops := by
    simp [openAll, loops, Outline.loops]
  have hnodes : (w.openAll n.id (g.loopsOpened n.id)).nodes = w.nodes := by
    simp [openAll, nodes, Outline.nodes]
  rw [visit] at h
  cases hcount : g.loopsClosed n.id with
  | zero =>
      simp only [hcount] at h
      obtain rfl := Option.some.inj h
      rw [headers_push, headers_openAll, nodes_push, hnodes]
      exact ⟨rfl, hloops ▸ loops_push, rfl⟩
  | succ count =>
      simp only [hcount] at h
      obtain ⟨hheaders, hperm, hlisted⟩ := closeAll_spec h
      rw [headers_openAll] at hheaders hperm
      rw [hloops] at hperm
      rw [hnodes] at hlisted
      exact ⟨hheaders, hperm, by rw [hlisted, Nat.max_eq_right (Nat.le_add_left 1 count)]⟩

theorem isSome_visit_iff :
    (w.visit g n).isSome ↔ g.loopsClosed n.id ≤ g.loopsOpened n.id + w.headers.length := by
  have hlength : (w.headersAt g n).length = g.loopsOpened n.id + w.headers.length := by
    simp [headersAt]
  rw [visit]
  cases hcount : g.loopsClosed n.id with
  | zero => simp
  | succ count =>
      simp only
      rw [isSome_closeAll_iff, headers_openAll, hlength]

/-! ### What a run of visits does -/

/-- The number of loops that some nodes open. -/
def opens (g : Graph) (ns : List Node) : ℕ := total (ns.map (fun n => g.loopsOpened n.id))

/-- The number of loops that some nodes close. -/
def closes (g : Graph) (ns : List Node) : ℕ := total (ns.map (fun n => g.loopsClosed n.id))

theorem length_headers_visit (h : w.visit g n = some w') :
    w'.headers.length + g.loopsClosed n.id = w.headers.length + g.loopsOpened n.id := by
  have hle := isSome_visit_iff.mp (h ▸ rfl : (w.visit g n).isSome)
  rw [(visit_spec h).1, List.length_drop, headersAt, List.length_append, List.length_replicate]
  omega

theorem length_headers_visitAll (h : w.visitAll g ns = some w') :
    w'.headers.length + closes g ns = w.headers.length + opens g ns := by
  induction ns generalizing w with
  | nil =>
      obtain rfl := Option.some.inj h
      rfl
  | cons n rest ih =>
      obtain ⟨v, hv, hrest⟩ := Option.bind_eq_some_iff.mp h
      have hfirst := length_headers_visit hv
      have hlater := ih hrest
      simp only [opens, closes, List.map_cons, total_cons] at hlater ⊢
      omega

/-- A walk goes on as long as no nodes close more loops than were open or are opened by them. -/
theorem isSome_visitAll_iff : (w.visitAll g ns).isSome ↔
    ∀ pre post, ns = pre ++ post → closes g pre ≤ w.headers.length + opens g pre := by
  induction ns generalizing w with
  | nil =>
      refine ⟨fun _ pre post h => ?_, fun _ => rfl⟩
      rw [(List.append_eq_nil_iff.mp h.symm).1]
      exact Nat.zero_le _
  | cons n rest ih =>
      rw [visitAll]
      constructor
      · intro h pre post hsplit
        obtain ⟨w', hw'⟩ := Option.isSome_iff_exists.mp h
        obtain ⟨v, hv, hrest⟩ := Option.bind_eq_some_iff.mp hw'
        have hfirst := length_headers_visit hv
        cases pre with
        | nil => exact Nat.zero_le _
        | cons m pre =>
            obtain ⟨rfl, hrest'⟩ := List.cons.inj hsplit
            have hlater := ih.mp (Option.isSome_iff_exists.mpr ⟨w', hrest⟩) pre post hrest'
            simp only [opens, closes, List.map_cons, total_cons] at hlater ⊢
            omega
      · intro h
        have hfirst := h [n] rest rfl
        simp only [opens, closes, List.map_cons, List.map_nil, total_cons, total_nil] at hfirst
        obtain ⟨v, hv⟩ := Option.isSome_iff_exists.mp
          (isSome_visit_iff.mpr (by omega) : (w.visit g n).isSome)
        have hlength := length_headers_visit hv
        rw [hv]
        refine ih.mpr (fun pre post hsplit => ?_)
        have hlater := h (n :: pre) post (by rw [hsplit]; rfl)
        simp only [opens, closes, List.map_cons, total_cons] at hlater ⊢
        omega

theorem nodes_visitAll (h : w.visitAll g ns = some w') :
    w'.nodes = w.nodes ++
      ns.flatMap (fun n => List.replicate (max 1 (g.loopsClosed n.id)) n) := by
  induction ns generalizing w with
  | nil =>
      obtain rfl := Option.some.inj h
      simp
  | cons n rest ih =>
      obtain ⟨v, hv, hrest⟩ := Option.bind_eq_some_iff.mp h
      rw [ih hrest, (visit_spec hv).2.2, List.flatMap_cons, List.append_assoc]

/-- The walk before the first node. -/
def start : Walk := ⟨[], .done⟩

end Walk

namespace Graph

variable {g : Graph} {points : Set ℕ} {i : ℕ}

/-- The outline of a graph, if all loops are closed. -/
def outline (g : Graph) : Option Outline :=
  (Walk.start.visitAll g g.nodes).bind fun w => if w.opened.isEmpty then some w.outer else none

theorem outline_eq_some_iff {o : Outline} :
    g.outline = some o ↔ Walk.start.visitAll g g.nodes = some ⟨[], o⟩ := by
  rw [outline, Option.bind_eq_some_iff]
  constructor
  · rintro ⟨w, hw, ho⟩
    split_ifs at ho with hempty
    obtain rfl := Option.some.inj ho
    rw [hw, ← List.isEmpty_iff.mp hempty]
  · intro h
    exact ⟨_, h, rfl⟩

theorem toPlan_of_walk {w : Walk} (hw : Walk.start.visitAll g g.nodes = some w) :
    g.toPlan.value = finish w.stack := by
  rw [toPlan, Logged.value_bind, show [⟨false, []⟩] = Walk.start.stack from rfl,
    Walk.enterAll_of_some hw]
  rfl

theorem toPlan_of_stuck (hw : Walk.start.visitAll g g.nodes = none) :
    ∃ i ∈ g.ids, g.toPlan.value = .error (.unbalancedLoops (.neverOpened i)) := by
  obtain ⟨n, hn, hvalue⟩ := Walk.enterAll_of_none hw
  refine ⟨n.id, List.mem_map_of_mem hn, ?_⟩
  rw [toPlan, Logged.value_bind, show [⟨false, []⟩] = Walk.start.stack from rfl, hvalue]
  rfl

theorem toPlan_of_outline {o : Outline} (ho : g.outline = some o) :
    g.toPlan.value = .ok (.nary {} .sequence o.plans) :=
  toPlan_of_walk (outline_eq_some_iff.mp ho)

theorem toPlan_eq_ok_iff {p : Plan} :
    g.toPlan.value = .ok p ↔ ∃ o, g.outline = some o ∧ p = .nary {} .sequence o.plans := by
  constructor
  · intro h
    cases hw : Walk.start.visitAll g g.nodes with
    | none =>
        obtain ⟨i, _, hvalue⟩ := toPlan_of_stuck hw
        rw [hvalue] at h
        cases h
    | some w =>
        rw [toPlan_of_walk hw] at h
        obtain ⟨opened, outer⟩ := w
        cases opened with
        | nil => exact ⟨outer, outline_eq_some_iff.mpr hw, (Except.ok.inj h).symm⟩
        | cons b rest => cases h
  · rintro ⟨o, ho, rfl⟩
    exact toPlan_of_outline ho

/-! ### Edges that do not lead to the next node -/

/-- The edges that do not lead to the next node. -/
def jumps (g : Graph) : List Edge :=
  g.edges.toList.filter (fun e => g.following? e.source != some e.target)

theorem mem_jumps {e : Edge} : e ∈ g.jumps ↔ e ∈ g.edges ∧ g.following? e.source ≠ some e.target := by
  rw [jumps, List.mem_filter, SortedSet.mem_toList, bne_iff_ne]

theorem Represented.mem_jumps_ids (hg : g.Represented points) {e : Edge} (he : e ∈ g.jumps) :
    e.source ∈ g.ids ∧ e.target ∈ g.ids := hg.ends_mem e (mem_jumps.mp he).1

theorem Represented.edges_perm (hg : g.Represented points) :
    g.edges.toList.Perm (spine g.ids ++ g.jumps) := by
  have hnum := hg.threaded.numbered
  have hnext : ∀ e : Edge, e.source ∈ g.ids →
      (g.following? e.source = some e.target ↔ e ∈ spine g.ids) :=
    fun e hsource => hnum.following?_iff hsource
  refine (List.perm_ext_iff_of_nodup g.edges.nodup_toList ?_).mpr (fun e => ?_)
  · refine List.nodup_append'.mpr ⟨nodup_spine hnum.nodup, g.edges.nodup_toList.filter _, ?_⟩
    intro e hspine hjump
    exact (mem_jumps.mp hjump).2 ((hnext e (mem_of_mem_spine hspine).1).mpr hspine)
  · rw [List.mem_append, SortedSet.mem_toList, mem_jumps]
    constructor
    · intro he
      rw [Ne, hnext e (hg.ends_mem e he).1]
      tauto
    · rintro (he | he)
      · exact hg.threaded.spine_mem e he
      · exact he.1

theorem Represented.loopsOpened (hg : g.Represented points) (hi : i ∈ g.ids) :
    g.loopsOpened i = g.jumps.countP (fun e => e.target == i) :=
  loopsOpened_of_perm hg.threaded.numbered.nodup hg.edges_perm hi

theorem Represented.loopsClosed (hg : g.Represented points) (hi : i ∈ g.ids) :
    g.loopsClosed i = g.jumps.countP (fun e => e.source == i) :=
  loopsClosed_of_perm hg.threaded.numbered.nodup hg.edges_perm hi

/-- Every graph that can be built has edges between its nodes only, among them the thread. -/
theorem Built.represented (hg : g.Built) : ∃ points, g.Represented points := by
  induction hg with
  | empty cells => exact ⟨_, represented_empty cells⟩
  | add op target uses _ ih => exact ⟨_, ih.choose_spec.withNode op target uses⟩
  | connect _ ok ih =>
      obtain ⟨hi, hj, rfl⟩ := connect_eq_ok ok
      exact ⟨_, ih.choose_spec.connect hi hj⟩
  | delete _ ok ih =>
      obtain ⟨hi, rfl⟩ := delete_eq_ok ok
      exact ⟨_, ih.choose_spec.without hi⟩
  | inline _ ok ih =>
      obtain ⟨writer, reader, hw, _, rfl⟩ := inline_eq_ok ok
      exact ⟨_, ih.choose_spec.fused (mem_of_node? hw).1 reader _⟩

/-! ### Counting -/

/-- Edges are counted once at the node that they have as an end. -/
theorem total_countP (f : Edge → ℕ) (edges : List Edge) {l : List ℕ} (hl : l.Nodup) :
    total (l.map (fun i => edges.countP (fun e => f e == i))) =
      edges.countP (fun e => decide (f e ∈ l)) := by
  induction l with
  | nil => simp
  | cons i l ih =>
      obtain ⟨hi, hl⟩ := List.nodup_cons.mp hl
      rw [List.map_cons, total_cons, ih hl]
      clear ih
      induction edges with
      | nil => rfl
      | cons e edges ih =>
          simp only [List.countP_cons, beq_iff_eq, decide_eq_true_eq, List.mem_cons] at ih ⊢
          by_cases he : f e = i
          · subst he
            simp only [hi]
            simp only [true_or, if_true, if_false]
            omega
          · simp only [he, false_or, if_false]
            omega

/-- The nodes up to one of them, in a list with increasing numbers. -/
theorem filter_le_of_increasing {l r : List ℕ} (h : (l ++ i :: r).Pairwise (· < ·)) :
    (l ++ i :: r).filter (fun j => decide (j ≤ i)) = l ++ [i] := by
  obtain ⟨_, hr, hlr⟩ := List.pairwise_append.mp h
  have hkeep : l.filter (fun j => decide (j ≤ i)) = l :=
    List.filter_eq_self.mpr (fun j hj => decide_eq_true (hlr j hj i List.mem_cons_self).le)
  have hdrop : r.filter (fun j => decide (j ≤ i)) = [] :=
    List.filter_eq_nil_iff.mpr (fun j hj => by
      have := (List.pairwise_cons.mp hr).1 j hj
      simp
      omega)
  rw [List.filter_append, List.filter_cons_of_pos (by simp), hkeep, hdrop]

/-- The loops that are opened and closed up to a node. -/
theorem Represented.counts (hg : g.Represented points) {l : List ℕ} (hl : l.Sublist g.ids) :
    total (l.map g.loopsOpened) = g.jumps.countP (fun e => decide (e.target ∈ l)) ∧
      total (l.map g.loopsClosed) = g.jumps.countP (fun e => decide (e.source ∈ l)) := by
  have hnodup := hl.nodup hg.threaded.numbered.nodup
  rw [← total_countP Edge.target g.jumps hnodup, ← total_countP Edge.source g.jumps hnodup]
  constructor
  · exact congrArg total (List.map_congr_left fun i hi => hg.loopsOpened (hl.subset hi))
  · exact congrArg total (List.map_congr_left fun i hi => hg.loopsClosed (hl.subset hi))

theorem opens_eq (g : Graph) (ns : List Node) :
    Walk.opens g ns = total ((ns.map Node.id).map g.loopsOpened) := by
  rw [Walk.opens, List.map_map]
  rfl

theorem closes_eq (g : Graph) (ns : List Node) :
    Walk.closes g ns = total ((ns.map Node.id).map g.loopsClosed) := by
  rw [Walk.closes, List.map_map]
  rfl

theorem Represented.opens_eq_closes (hg : g.Represented points) :
    Walk.opens g g.nodes = Walk.closes g g.nodes := by
  obtain ⟨hopened, hclosed⟩ := hg.counts (List.Sublist.refl g.ids)
  rw [opens_eq, closes_eq]
  show total (g.ids.map _) = total (g.ids.map _)
  rw [hopened, hclosed, List.countP_eq_length.mpr, List.countP_eq_length.mpr]
  · exact fun e he => decide_eq_true (hg.mem_jumps_ids he).1
  · exact fun e he => decide_eq_true (hg.mem_jumps_ids he).2

/-- A walk that reaches the end has closed all loops. -/
theorem Represented.exists_outline (hg : g.Represented points) {w : Walk}
    (hw : Walk.start.visitAll g g.nodes = some w) : g.outline = some w.outer := by
  have hlength := Walk.length_headers_visitAll hw
  have hstart : Walk.start.headers.length = 0 := rfl
  rw [hg.opens_eq_closes, hstart, Walk.headers, List.length_map] at hlength
  have hopened : w.opened = [] := List.eq_nil_of_length_eq_zero (by omega)
  rw [outline_eq_some_iff, hw, ← hopened]

/-! ### The success of structuring -/

/-- Up to each node no more loops are closed than opened. -/
def Balanced (g : Graph) : Prop :=
  ∀ i ∈ g.ids, total ((g.ids.filter (fun j => decide (j ≤ i))).map g.loopsClosed) ≤
    total ((g.ids.filter (fun j => decide (j ≤ i))).map g.loopsOpened)

/-- The walk reaches the end exactly if the graph is balanced. -/
theorem Represented.isSome_walk_iff (hg : g.Represented points) :
    (Walk.start.visitAll g g.nodes).isSome ↔ g.Balanced := by
  have hincreasing := hg.threaded.numbered.increasing
  have hstart : Walk.start.headers.length = 0 := rfl
  rw [Walk.isSome_visitAll_iff]
  simp only [hstart, Nat.zero_add, opens_eq, closes_eq]
  constructor
  · intro h i hi
    obtain ⟨n, hn, rfl⟩ := List.mem_map.mp hi
    obtain ⟨pre, post, hnodes⟩ := List.append_of_mem hn
    have hids : g.ids = pre.map Node.id ++ n.id :: post.map Node.id := by simp [ids, hnodes]
    have hupto := h (pre ++ [n]) post (by simp [hnodes])
    rw [hids] at hincreasing ⊢
    rw [filter_le_of_increasing hincreasing]
    simpa using hupto
  · intro h pre post hsplit
    rcases List.eq_nil_or_concat pre with rfl | ⟨pre, n, rfl⟩
    · exact Nat.le_refl _
    · rw [List.concat_eq_append, List.append_assoc, List.singleton_append] at hsplit
      have hids : g.ids = pre.map Node.id ++ n.id :: post.map Node.id := by simp [ids, hsplit]
      have hupto := h n.id (by simp [hids])
      rw [hids] at hincreasing hupto
      rw [filter_le_of_increasing hincreasing] at hupto
      simpa using hupto

theorem Represented.exists_toPlan_iff (hg : g.Represented points) :
    (∃ p, g.toPlan.value = .ok p) ↔ g.Balanced := by
  rw [← hg.isSome_walk_iff]
  constructor
  · rintro ⟨p, hp⟩
    obtain ⟨o, ho, _⟩ := toPlan_eq_ok_iff.mp hp
    rw [outline_eq_some_iff.mp ho]
    rfl
  · intro h
    obtain ⟨w, hw⟩ := Option.isSome_iff_exists.mp h
    exact ⟨_, toPlan_of_outline (hg.exists_outline hw)⟩

theorem Represented.toPlan_eq_error (hg : g.Represented points) {e : PlanError}
    (he : g.toPlan.value = .error e) : ∃ i ∈ g.ids, e = .unbalancedLoops (.neverOpened i) := by
  cases hw : Walk.start.visitAll g g.nodes with
  | none =>
      obtain ⟨i, hi, hvalue⟩ := toPlan_of_stuck hw
      rw [hvalue] at he
      exact ⟨i, hi, (Except.error.inj he).symm⟩
  | some w =>
      rw [toPlan_of_outline (hg.exists_outline hw)] at he
      cases he

/-- Where all jumps lead back, a loop is opened before it is closed. -/
theorem Represented.balanced_of_back (hg : g.Represented points)
    (hback : ∀ e ∈ g.jumps, e.target ≤ e.source) : g.Balanced := by
  intro i hi
  obtain ⟨hopened, hclosed⟩ := hg.counts (List.filter_sublist (p := fun j => decide (j ≤ i)))
  rw [hopened, hclosed]
  refine List.countP_mono_left (fun e he hsource => ?_)
  have htarget := (hg.mem_jumps_ids he).2
  have hle := hback e he
  simp only [decide_eq_true_eq, List.mem_filter] at hsource ⊢
  exact ⟨htarget, hle.trans hsource.2⟩

/-- **When structuring succeeds.**  A graph has a plan exactly if up to each node no more loops are
closed than opened, and otherwise some node ends a loop that was never opened.  It has one if all edges
but those to the next node lead back.  The plan is that of the outline, which lists the nodes in order, one
that closes loops once for each of them and any other one once. -/
theorem toPlan_ok_iff_balanced (hg : g.Built) :
    ((∃ p, g.toPlan.value = .ok p) ↔
        ∀ i ∈ g.ids, total ((g.ids.filter (fun j => decide (j ≤ i))).map g.loopsClosed) ≤
          total ((g.ids.filter (fun j => decide (j ≤ i))).map g.loopsOpened)) ∧
      (∀ e, g.toPlan.value = .error e → ∃ i ∈ g.ids, e = .unbalancedLoops (.neverOpened i)) ∧
      ((∀ e ∈ g.edges, g.following? e.source ≠ some e.target → e.target ≤ e.source) →
        ∃ p, g.toPlan.value = .ok p) ∧
      ∀ p, g.toPlan.value = .ok p → ∃ o, g.outline = some o ∧ p = .nary {} .sequence o.plans ∧
        o.nodes = g.nodes.flatMap (fun n => List.replicate (max 1 (g.loopsClosed n.id)) n) := by
  obtain ⟨points, hrep⟩ := hg.represented
  refine ⟨hrep.exists_toPlan_iff, fun e => hrep.toPlan_eq_error, fun hback => ?_, fun p hp => ?_⟩
  · apply hrep.exists_toPlan_iff.mpr
    exact hrep.balanced_of_back (fun e he => hback e (mem_jumps.mp he).1 (mem_jumps.mp he).2)
  · obtain ⟨o, ho, rfl⟩ := toPlan_eq_ok_iff.mp hp
    have hnodes := Walk.nodes_visitAll (outline_eq_some_iff.mp ho)
    exact ⟨o, ho, rfl, by simpa [Walk.nodes, Walk.start, Outline.nodes] using hnodes⟩

/-- Nodes one after the other that read and assign nothing. -/
def line : ℕ → Graph
  | 0 => .empty
  | count + 1 => (line count).withNode (.leaf {} .singleton) none .empty

theorem built_line (count : ℕ) : (line count).Built := by
  induction count with
  | zero => exact .empty .empty
  | succ count ih => exact ih.add (.leaf {} .singleton) none .empty

/-- The third of four nodes leads back to the first one and to the second one. -/
def doubled : Graph := { line 4 with edges := ((line 4).edges.insert ⟨2, 1⟩).insert ⟨2, 0⟩ }

theorem built_doubled : doubled.Built :=
  ((built_line 4).connect (connect_of_mem (s := 2) (t := 1) (by decide) (by decide))).connect
    (connect_of_mem (s := 2) (t := 0) (by decide) (by decide))

theorem toPlan_ok_iff_balanced_doubled : doubled.Built ∧ ∃ p, doubled.toPlan.value = .ok p ∧
    ∃ o : Outline, p = .nary {} .sequence o.plans ∧ o.nodes.map Node.id = [0, 1, 2, 2, 3] := by
  obtain ⟨_, _, hback, hlists⟩ := toPlan_ok_iff_balanced built_doubled
  have hjumps : ∀ e ∈ doubled.edges.toList,
      doubled.following? e.source ≠ some e.target → e.target ≤ e.source := by decide
  obtain ⟨p, hp⟩ := hback hjumps
  obtain ⟨o, _, hplan, hnodes⟩ := hlists p hp
  exact ⟨built_doubled, p, hp, o, hplan, by rw [hnodes]; decide⟩

end Graph

end Planner.Flow
