import Mathlib.Data.Set.Basic
import Planner.Proofs.Flow.Saturation

/-! # How graphs come about

A graph is changed by one `Change` after the other: a node is added, an edge is added, a pass deletes
the first dead node or joins the first pair of neighbours.  The edges are kept in a directed graph that
has points of its own: an edge that comes in brings its two ends, and a point that goes takes its edges
along.  `Change` follows these points beside the graph, and `Reached` holds of what comes from the
graph without nodes by any number of changes.

At every time the points are the numbers of the nodes and the thread runs through them
(`Represented`), for each change keeps this (`Represented.change`).  A number that was given once is
not given again (`Change.mem_ids`).  Main statement: `represented_of_reached`, with both passes as runs
of changes, whether they fail or not, and with what is true of the pair that is joined. -/

namespace Planner.Flow.Graph

open Relation

variable {g h : Graph} {points later : Set ℕ} {s t : Graph × Set ℕ} {n writer reader : Node}
  {name : String} {i j : ℕ}

/-! ### Changes -/

/-- The ends of some edges. -/
def ends (edges : List Edge) : Set ℕ := { i | ∃ e ∈ edges, i = e.source ∨ i = e.target }

/-- The edge that leads from the last node, if there is one, to the next one to come. -/
def nextEdge (g : Graph) : List Edge := (g.last?.map (fun last => ⟨last, g.next⟩)).toList

/-- A change of a graph and of the points of the directed graph that holds its edges.  The plan of a
new node may have brought cells of its own. -/
inductive Change : Graph × Set ℕ → Graph × Set ℕ → Prop
  | add {g : Graph} {points : Set ℕ} (cells : Cells) (op : Plan) (target : Option String)
      (uses : NameSet) : Change (g, points) (({ g with cells := cells }.add op target uses).value,
        insert g.next points ∪ ends g.nextEdge)
  | connect {g h : Graph} {points : Set ℕ} {i j : ℕ} (ok : g.connect i j = .ok h) :
      Change (g, points) (h, points ∪ ends [⟨i, j⟩])
  | delete {g h : Graph} {points : Set ℕ} {i : ℕ} (dead : g.dead? g.liveness.value = some i)
      (ok : g.delete i = .ok h) : Change (g, points) (h, (points ∪ ends (g.detours i)) \ {i})
  | inline {g h : Graph} {points : Set ℕ} {link : Link}
      (first : g.firstLink? g.liveness.value = some link)
      (ok : (g.inline link.writer link.reader link.name).value = .ok h) :
      Change (g, points) (h, (points ∪ ends (g.detours link.writer)) \ {link.writer})

/-- What comes from the graph without nodes by any number of changes. -/
def Reached (g : Graph) (points : Set ℕ) : Prop :=
  ∃ cells, ReflTransGen Change ({ Graph.empty with cells := cells }, ∅) (g, points)

/-! ### The representation -/

/-- The points are the numbers of the nodes, edges join points, and the thread runs through them. -/
structure Represented (g : Graph) (points : Set ℕ) : Prop where
  points_eq : points = { i | i ∈ g.ids }
  ends_mem : ∀ e ∈ g.edges, e.source ∈ g.ids ∧ e.target ∈ g.ids
  threaded : g.Threaded

theorem represented_empty (cells : Cells) : Represented { Graph.empty with cells := cells } ∅ where
  points_eq := by simp [ids, Graph.empty]
  ends_mem := fun e he => absurd he (SortedSet.not_mem_empty e)
  threaded := (Built.empty cells).threaded

theorem mem_edges_withNode {op : Plan} {target : Option String} {uses : NameSet} {e : Edge} :
    e ∈ (g.withNode op target uses).edges ↔ e ∈ g.nextEdge ∨ e ∈ g.edges := by
  unfold Graph.withNode nextEdge
  cases g.last? with
  | none => simp
  | some last => simp

theorem source_mem_of_mem_nextEdge {e : Edge} (he : e ∈ g.nextEdge) :
    e.source ∈ g.ids ∧ e.target = g.next := by
  unfold nextEdge at he
  rw [Option.mem_toList, Option.map_eq_some_iff] at he
  obtain ⟨last, hlast, rfl⟩ := he
  exact ⟨List.mem_of_mem_getLast? hlast, rfl⟩

theorem Represented.withNode (hg : g.Represented points) (op : Plan) (target : Option String)
    (uses : NameSet) :
    (g.withNode op target uses).Represented (insert g.next points ∪ ends g.nextEdge) where
  points_eq := by
    ext i
    rw [hg.points_eq, ids_withNode]
    simp only [Set.mem_union, Set.mem_insert_iff, Set.mem_ofPred_eq, List.mem_append,
      List.mem_singleton]
    constructor
    · rintro ((rfl | hi) | ⟨e, he, hi⟩)
      · exact Or.inr rfl
      · exact Or.inl hi
      · obtain ⟨hsource, htarget⟩ := source_mem_of_mem_nextEdge he
        rcases hi with rfl | rfl
        · exact Or.inl hsource
        · exact Or.inr htarget
    · rintro (hi | rfl)
      · exact Or.inl (Or.inr hi)
      · exact Or.inl (Or.inl rfl)
  ends_mem := by
    intro e he
    rw [ids_withNode]
    rcases mem_edges_withNode.mp he with he | he
    · obtain ⟨hsource, htarget⟩ := source_mem_of_mem_nextEdge he
      exact ⟨List.mem_append_left _ hsource, List.mem_append_right _ (by simp [htarget])⟩
    · obtain ⟨hsource, htarget⟩ := hg.ends_mem e he
      exact ⟨List.mem_append_left _ hsource, List.mem_append_left _ htarget⟩
  threaded := hg.threaded.withNode op target uses

theorem Represented.withCells (hg : g.Represented points) (cells : Cells) :
    { g with cells := cells }.Represented points :=
  ⟨hg.points_eq, hg.ends_mem, hg.threaded.withCells cells⟩

theorem Represented.replaceNode (hg : g.Represented points) (n : Node) :
    (g.replaceNode n).Represented points where
  points_eq := by rw [hg.points_eq, ids_replaceNode]
  ends_mem := by
    rw [ids_replaceNode]
    exact hg.ends_mem
  threaded := hg.threaded.replaceNode n

theorem Represented.connect (hg : g.Represented points) (hi : i ∈ g.ids) (hj : j ∈ g.ids) :
    { g with edges := g.edges.insert ⟨i, j⟩ }.Represented (points ∪ ends [⟨i, j⟩]) where
  points_eq := by
    ext k
    rw [hg.points_eq]
    simp only [ends, List.mem_singleton, exists_eq_left, Set.mem_union, Set.mem_ofPred_eq]
    constructor
    · rintro (hk | rfl | rfl)
      · exact hk
      · exact hi
      · exact hj
    · exact fun hk => Or.inl hk
  ends_mem := by
    intro e he
    rcases SortedSet.mem_insert.mp he with rfl | he
    · exact ⟨hi, hj⟩
    · exact hg.ends_mem e he
  threaded := hg.threaded.withEdge ⟨i, j⟩

theorem mem_ids_of_following? (h : g.following? i = some j) : j ∈ g.ids := List.mem_of_find?_eq_some h

/-- Where a node is deleted, its predecessors and the node that follows it stay, so no point comes
back. -/
theorem Represented.without (hg : g.Represented points) (hi : i ∈ g.ids) :
    (g.without i).Represented ((points ∪ ends (g.detours i)) \ {i}) where
  points_eq := by
    ext k
    rw [hg.points_eq, ids_without]
    simp only [Set.mem_sdiff, Set.mem_union, Set.mem_ofPred_eq, Set.mem_singleton_iff, List.mem_filter,
      bne_iff_ne]
    refine and_congr_left (fun _ => ⟨?_, Or.inl⟩)
    rintro (hk | ⟨e, he, hk⟩)
    · exact hk
    · obtain ⟨hnext, hedge, _⟩ := mem_detours.mp he
      rcases hk with rfl | rfl
      · exact (hg.ends_mem _ hedge).1
      · exact mem_ids_of_following? hnext
  ends_mem := by
    intro e he
    simp only [ids_without, List.mem_filter, bne_iff_ne]
    obtain ⟨hsource, htarget, hedge | ⟨hedge, hnext⟩⟩ := mem_edges_without.mp he
    · exact ⟨⟨(hg.ends_mem e hedge).1, hsource⟩, (hg.ends_mem e hedge).2, htarget⟩
    · exact ⟨⟨(hg.ends_mem _ hedge).1, hsource⟩, mem_ids_of_following? hnext, htarget⟩
  threaded := hg.threaded.without hi

theorem Represented.fused (hg : g.Represented points) (hw : writer ∈ g.nodes) (reader : Node)
    (name : String) :
    (g.fused writer reader name).Represented ((points ∪ ends (g.detours writer.id)) \ {writer.id}) := by
  have hreplaced := (hg.withCells
    (reader.op.substitute name (writer.stored name) g.cells).2.2).replaceNode
      (g.absorbed writer reader name)
  have hids := ids_replaceNode { g with
    cells := (reader.op.substitute name (writer.stored name) g.cells).2.2 }
      (g.absorbed writer reader name)
  have hdetours : ({ g with
      cells := (reader.op.substitute name (writer.stored name) g.cells).2.2 }.replaceNode
        (g.absorbed writer reader name)).detours writer.id = g.detours writer.id := by
    rw [detours, detours, following?, hids]
    rfl
  rw [← hdetours]
  exact hreplaced.without (hids ▸ List.mem_map_of_mem hw)

/-- **Every change keeps the representation.** -/
theorem Represented.change (hs : s.1.Represented s.2) (hc : Change s t) : t.1.Represented t.2 := by
  cases hc with
  | add cells op target uses => exact (hs.withCells cells).withNode op target uses
  | connect ok =>
      obtain ⟨hi, hj, rfl⟩ := connect_eq_ok ok
      exact hs.connect hi hj
  | delete dead ok =>
      obtain ⟨hi, rfl⟩ := delete_eq_ok ok
      exact hs.without hi
  | inline first ok =>
      obtain ⟨writer, reader, hw, _, rfl⟩ := inline_eq_ok ok
      obtain ⟨hmem, hid⟩ := mem_of_node? hw
      rw [← hid]
      exact hs.fused hmem reader _

theorem Reached.represented (hg : Reached g points) : g.Represented points := by
  obtain ⟨cells, hrun⟩ := hg
  generalize hend : (g, points) = t at hrun
  suffices t.1.Represented t.2 by
    rw [← hend] at this
    exact this
  clear hend
  induction hrun with
  | refl => exact represented_empty cells
  | tail _ hc ih => exact ih.change hc

/-! ### Numbers -/

/-- A change gives no number again: a number that a node has now and that was given before, a node had
before. -/
theorem Change.mem_ids (hc : Change s t) :
    s.1.next ≤ t.1.next ∧ ∀ i ∈ t.1.ids, i < s.1.next → i ∈ s.1.ids := by
  cases hc with
  | @add g points cells op target uses =>
      refine ⟨Nat.le_succ _, fun i hi hlt => ?_⟩
      have hids : ({ g with cells := cells }.add op target uses).value.ids = g.ids ++ [g.next] :=
        ids_withNode _ op target uses
      rw [hids] at hi
      rcases List.mem_append.mp hi with hi | hi
      · exact hi
      · exact absurd hlt (by simp [List.mem_singleton.mp hi])
  | connect ok =>
      obtain ⟨_, _, rfl⟩ := connect_eq_ok ok
      exact ⟨Nat.le_refl _, fun i hi _ => hi⟩
  | delete dead ok =>
      obtain ⟨_, rfl⟩ := delete_eq_ok ok
      refine ⟨Nat.le_refl _, fun i hi _ => ?_⟩
      simp only [ids_without] at hi
      exact (List.mem_filter.mp hi).1
  | inline first ok =>
      obtain ⟨writer, reader, _, _, rfl⟩ := inline_eq_ok ok
      refine ⟨Nat.le_refl _, fun i hi _ => ?_⟩
      simp only [fused, ids_without, ids_replaceNode] at hi
      exact (List.mem_filter.mp hi).1

theorem mem_ids_of_run (hrun : ReflTransGen Change s t) :
    s.1.next ≤ t.1.next ∧ ∀ i ∈ t.1.ids, i < s.1.next → i ∈ s.1.ids := by
  induction hrun with
  | refl => exact ⟨Nat.le_refl _, fun i hi _ => hi⟩
  | tail _ hc ih =>
      obtain ⟨hnext, hmem⟩ := hc.mem_ids
      refine ⟨Nat.le_trans ih.1 hnext, fun i hi hlt => ?_⟩
      exact ih.2 i (hmem i hi (Nat.lt_of_lt_of_le hlt ih.1)) hlt

/-! ### Passes -/

theorem eliminateWithin_changes (g : Graph) (points : Set ℕ) (fuel removed : ℕ) :
    ∃ later, ReflTransGen Change (g, points) ((g.eliminateWithin fuel removed).value.1, later) := by
  induction fuel generalizing g points removed with
  | zero => exact ⟨points, .refl⟩
  | succ fuel ih =>
      simp only [Graph.eliminateWithin, Logged.value_bind]
      cases hd : g.dead? g.liveness.value with
      | none => exact ⟨points, .refl⟩
      | some id =>
          simp only [Logged.value_bind]
          cases hdelete : g.delete id with
          | error e => exact ⟨points, .refl⟩
          | ok h =>
              obtain ⟨later, hrun⟩ := ih h ((points ∪ ends (g.detours id)) \ {id}) (removed + 1)
              exact ⟨later, .head (.delete hd hdelete) hrun⟩

theorem eliminate_changes (g : Graph) (points : Set ℕ) :
    ∃ later, ReflTransGen Change (g, points) (g.eliminate.value.1, later) := by
  rw [eliminate_value]
  exact eliminateWithin_changes g points _ _

theorem chainWithin_changes (g : Graph) (points : Set ℕ) (fuel count : ℕ) :
    ∃ later, ReflTransGen Change (g, points) ((g.chainWithin fuel count).value.1, later) := by
  induction fuel generalizing g points count with
  | zero => exact ⟨points, .refl⟩
  | succ fuel ih =>
      simp only [Graph.chainWithin, Logged.value_bind]
      cases hl : g.firstLink? g.liveness.value with
      | none => exact ⟨points, .refl⟩
      | some link =>
          simp only [Logged.value_bind]
          cases hi : (g.inline link.writer link.reader link.name).value with
          | error e => exact ⟨points, .refl⟩
          | ok h =>
              obtain ⟨later, hrun⟩ :=
                ih h ((points ∪ ends (g.detours link.writer)) \ {link.writer}) (count + 1)
              exact ⟨later, .head (.inline hl hi) hrun⟩

/-- Joining neighbours is a run of changes, also where it fails. -/
theorem chain_changes (g : Graph) (points : Set ℕ) :
    ∃ later, ReflTransGen Change (g, points) (g.chain.value.1, later) := by
  rw [chain_value]
  exact chainWithin_changes g points _ _

/-! ### Failures -/

/-- Adding an edge fails for lack of one of its ends, before anything is changed. -/
theorem connect_eq_error {e : PlanError} (he : g.connect i j = .error e) :
    (i ∉ g.ids ∧ e = .unknownNode i) ∨ (j ∉ g.ids ∧ e = .unknownNode j) := by
  unfold connect at he
  split_ifs at he with hi hj
  · rw [Bool.not_eq_true', ← Bool.not_eq_true, has_iff] at hi
    exact Or.inl ⟨hi, (Except.error.inj he).symm⟩
  · rw [Bool.not_eq_true', ← Bool.not_eq_true, has_iff] at hj
    exact Or.inr ⟨hj, (Except.error.inj he).symm⟩

/-- Inlining as changes of one graph, with what is left of it where they stop: the reader's plan is
rewritten before it is known whether it reads the name. -/
def inlineInPlace (g : Graph) (source target : ℕ) (name : String) : Graph × Except PlanError Unit :=
  match g.node? target, g.node? source with
  | none, _ => (g, .error (.unknownNode target))
  | _, none => (g, .error (.unknownNode source))
  | some reader, some writer =>
    let (op, count, cells) := reader.op.substitute name (writer.stored name) g.cells
    let g := { g with cells := cells }.replaceNode { reader with op := op }
    if count = 0 then (g, .error (.inconsistentUses target name))
    else
      let uses := (reader.uses.erase name).union writer.uses
      let g := g.replaceNode { reader with op := op, uses := uses }
      match g.delete source with
      | .ok h => (h, .ok ())
      | .error e => (g, .error e)

theorem Numbered.replaceNode_self (hg : g.Numbered) (hn : n ∈ g.nodes) : g.replaceNode n = g := by
  have hnodes : g.nodes.map (fun m => if m.id = n.id then n else m) = g.nodes := by
    refine (List.map_congr_left (fun m hm => ?_)).trans (List.map_id' _)
    split_ifs with hid
    · exact hg.eq_of_id hn hm hid.symm
    · rfl
  rw [Graph.replaceNode, hnodes]

theorem replaceNode_replaceNode (g : Graph) {m n : Node} (hid : m.id = n.id) :
    (g.replaceNode m).replaceNode n = g.replaceNode n := by
  simp only [Graph.replaceNode, List.map_map]
  congr 1
  refine List.map_congr_left (fun k _ => ?_)
  simp only [Function.comp_apply, hid]
  split_ifs <;> simp_all

/-- What inlining does in place is what it gives, and where it fails it leaves the graph exactly as it
was. -/
theorem Numbered.inlineInPlace_eq (hg : g.Numbered) (i j : ℕ) (name : String) :
    g.inlineInPlace i j name = match (g.inline i j name).value with
      | .ok h => (h, .ok ())
      | .error e => (g, .error e) := by
  cases hr : g.node? j with
  | none => simp only [inlineInPlace, inline, hr, Logged.value_pure]
  | some reader =>
      cases hw : g.node? i with
      | none => simp only [inlineInPlace, inline, hr, hw, Logged.value_pure]
      | some writer =>
          have hcount := reader.op.substitute_count name (writer.stored name) g.cells
          rw [inline_value name hw hr]
          simp only [inlineInPlace, hr, hw, hcount]
          split_ifs with hreads
          -- Nothing was substituted, so the reader was written back as it was and no cell is new.
          · rw [Plan.substitute_of_not_mem (Plan.reads_eq_zero_iff.mp hreads)]
            simp only [hg.replaceNode_self (mem_of_node? hr).1]
          · obtain ⟨_, hid⟩ := mem_of_node? hw
            have hmem : i ∈ g.ids := mem_ids_of_node? hw
            have htwice := replaceNode_replaceNode { g with
                cells := (reader.op.substitute name (writer.stored name) g.cells).2.2 }
              (m := { reader with op := (reader.op.substitute name (writer.stored name) g.cells).1 })
              (n := g.absorbed writer reader name) rfl
            simp only [absorbed] at htwice
            rw [htwice, delete_of_mem (by rw [ids_replaceNode]; exact hmem), ← hid]
            rfl

/-! ### The result -/

/-- **Graphs stay represented.**  Whatever changes have been made, the points are the numbers of the
nodes, so every edge joins two nodes; an edge leads from each node to the next one; the numbers are
below the next one and none is given again; the first node of the pair that is joined leads to the
second one only, which is reached from there only.  Both passes are runs of changes, also where they
fail; adding an edge fails before anything is changed, and an inlining that fails leaves the graph as
it was. -/
theorem represented_of_reached (hg : Reached g points) :
    points = { i | i ∈ g.ids } ∧ (∀ e ∈ g.edges, e.source ∈ g.ids ∧ e.target ∈ g.ids) ∧
      (∀ l a b r, g.ids = l ++ a :: b :: r → a < b ∧ ⟨a, b⟩ ∈ g.edges) ∧
      (∀ i ∈ g.ids, i < g.next) ∧
      (∀ h later, ReflTransGen Change (g, points) (h, later) → ∀ i ∈ h.ids, i < g.next → i ∈ g.ids) ∧
      (∀ link, g.firstLink? g.liveness.value = some link →
        g.successors link.writer = [link.reader] ∧ g.predecessors link.reader = [link.writer]) ∧
      (∃ later, ReflTransGen Change (g, points) (g.eliminate.value.1, later)) ∧
      (∃ later, ReflTransGen Change (g, points) (g.chain.value.1, later)) ∧
      (∀ i j e, g.connect i j = .error e →
        (i ∉ g.ids ∧ e = .unknownNode i) ∨ (j ∉ g.ids ∧ e = .unknownNode j)) ∧
      ∀ i j name, g.inlineInPlace i j name = match (g.inline i j name).value with
        | .ok h => (h, .ok ())
        | .error e => (g, .error e) := by
  have hrep := hg.represented
  have hnum := hrep.threaded.numbered
  refine ⟨hrep.points_eq, hrep.ends_mem, fun l a b r hids => ?_, hnum.below,
    fun h later hrun => (mem_ids_of_run hrun).2, fun link hl => ?_, eliminate_changes g points,
    chain_changes g points, fun i j e => connect_eq_error, hnum.inlineInPlace_eq⟩
  · have hspine : ⟨a, b⟩ ∈ spine g.ids := (mem_spine_iff_head? hnum.nodup hids).mpr rfl
    exact ⟨source_lt_target hnum.increasing hspine, hrep.threaded.spine_mem _ hspine⟩
  · obtain ⟨a, b, name, rfl, hj⟩ := chainable_of_firstLink? hl
    exact ⟨hj.successors_eq hrep.threaded, hj.predecessors_eq hrep.threaded⟩

/-- A relation is stored, and then a name is assigned that nothing reads. -/
def grown : Graph :=
  (Graph.empty.withNode (.unary {} (.store ⟨"public", "adhoc", "r"⟩) (.leaf {} .singleton)) none
    .empty).withNode (.unary {} (.storeTemp "x") (.leaf {} .singleton)) (some "x") .empty

/-- The assignment has gone, and a test that leads back has come in its place. -/
def regrown : Graph :=
  let g := (grown.without 1).withNode (.leaf {} .singleton) none .empty
  { g with edges := g.edges.insert ⟨2, 0⟩ }

theorem reached_regrown : ∃ points, Reached regrown points := by
  have hgrown : ∃ points, ReflTransGen Change (Graph.empty, ∅) (grown, points) :=
    ⟨_, .tail (.tail .refl (.add .empty _ _ _)) (.add .empty _ _ _)⟩
  obtain ⟨points, hrun⟩ := hgrown
  have hdelete : Change (grown, points)
      (grown.without 1, (points ∪ ends (grown.detours 1)) \ {1}) :=
    .delete (by decide +kernel) (delete_of_mem (by decide))
  exact ⟨_, .empty, ((hrun.tail hdelete).tail (.add .empty (.leaf {} .singleton) none .empty)).tail
    (.connect (i := 2) (j := 0) (connect_of_mem (by decide) (by decide)))⟩

theorem represented_of_reached_regrown : ∃ points, Reached regrown points ∧
    points = { i | i ∈ [0, 2] } ∧ ⟨0, 2⟩ ∈ regrown.edges := by
  obtain ⟨points, hreached⟩ := reached_regrown
  obtain ⟨hpoints, _, hthread, _⟩ := represented_of_reached hreached
  exact ⟨points, hreached, hpoints, (hthread [] 0 2 [] rfl).2⟩

end Planner.Flow.Graph
