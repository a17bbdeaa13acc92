import Planner.Proofs.Flow.Passes

/-! # Threaded graphs

A graph is threaded (`Graph.Threaded`) if an edge leads from each of its nodes to the next one.  All
graphs that can be built are threaded, whatever other edges they have (`Built.threaded`), and so are
the graphs that show code (`Shows.threaded`).

In a threaded graph what is dead behind a node is not read in the nodes that follow it before it is
assigned again (`Threaded.unread`), and without a dead node no more is live anywhere
(`Threaded.within_without`), so the other dead nodes stay dead (`Threaded.isDead_without`).

The list of nodes is split at the nodes that a step is about: `nodes_without` and `nodes_fused` say what
is left of it.  `eliminate_stops` says that a run of deletions ends only where no node is dead. -/

namespace Planner.Flow.Graph

open Relation

variable {g h : Graph} {c : Code} {a b m n : Node} {pre post : List Node} {name : String} {i j : ℕ}

/-! ### The thread -/

/-- The numbers of the nodes increase, and an edge leads from each node to the next one. -/
structure Threaded (g : Graph) : Prop where
  numbered : g.Numbered
  spine_mem : ∀ e ∈ spine g.ids, e ∈ g.edges

theorem Shows.threaded (hg : g.Shows c) : g.Threaded :=
  ⟨hg.numbered, fun e he => (hg.mem_edges e).mpr (Or.inl (hg.ids_eq ▸ he))⟩

theorem Numbered.following?_iff (hg : g.Numbered) (hi : i ∈ g.ids) :
    g.following? i = some j ↔ ⟨i, j⟩ ∈ spine g.ids := by
  obtain ⟨l, r, hids⟩ := List.append_of_mem hi
  rw [following?_eq hids hg.increasing, mem_spine_iff_head? hg.nodup hids]

theorem ids_withNode (g : Graph) (op : Plan) (target : Option String) (uses : NameSet) :
    (g.withNode op target uses).ids = g.ids ++ [g.next] := by simp [ids, Graph.withNode]

theorem Threaded.withNode (hg : g.Threaded) (op : Plan) (target : Option String) (uses : NameSet) :
    (g.withNode op target uses).Threaded := by
  refine ⟨hg.numbered.withNode op target uses, fun e he => ?_⟩
  rw [ids_withNode, mem_spine_append] at he
  simp only [Graph.withNode, last?]
  rcases he with he | ⟨hlast, hnext⟩ | he
  · have hmem := hg.spine_mem e he
    cases g.ids.getLast? with
    | none => exact hmem
    | some last => exact SortedSet.mem_insert.mpr (Or.inr hmem)
  · have htarget : g.next = e.target := by simpa using hnext
    rw [hlast, htarget]
    exact SortedSet.mem_insert.mpr (Or.inl rfl)
  · cases he

/-- Where a node is deleted, what came before it leads to what came behind it. -/
theorem Threaded.without (hg : g.Threaded) (hi : i ∈ g.ids) : (g.without i).Threaded := by
  obtain ⟨l, r, hids⟩ := List.append_of_mem hi
  have hnodup := hg.numbered.nodup
  have hfilter : g.ids.filter (fun j => j != i) = l ++ r := by
    rw [hids, filter_ne_append (hids ▸ hnodup)]
  refine ⟨hg.numbered.without i, fun e he => ?_⟩
  rw [ids_without, hfilter, mem_spine_drop (hids ▸ hnodup), ← hids] at he
  obtain ⟨hsource, htarget, he | ⟨he, hnext⟩⟩ := he
  · exact mem_edges_without.mpr ⟨hsource, htarget, Or.inl (hg.spine_mem e he)⟩
  · refine mem_edges_without.mpr ⟨hsource, htarget, Or.inr ⟨hg.spine_mem _ he, ?_⟩⟩
    rw [following?_eq hids hg.numbered.increasing, hnext]

theorem Threaded.replaceNode (hg : g.Threaded) (n : Node) : (g.replaceNode n).Threaded := by
  refine ⟨hg.numbered.replaceNode n, fun e he => ?_⟩
  rw [ids_replaceNode] at he
  exact hg.spine_mem e he

theorem Threaded.withCells (hg : g.Threaded) (cells : Cells) : { g with cells := cells }.Threaded :=
  ⟨⟨hg.numbered.increasing, hg.numbered.below⟩, hg.spine_mem⟩

theorem Threaded.withEdge (hg : g.Threaded) (e : Edge) :
    { g with edges := g.edges.insert e }.Threaded := by
  refine ⟨⟨hg.numbered.increasing, hg.numbered.below⟩, fun d hd => ?_⟩
  exact SortedSet.mem_insert.mpr (Or.inr (hg.spine_mem d hd))

theorem Threaded.fused (hg : g.Threaded) (ha : a ∈ g.nodes) (b : Node) (name : String) :
    (g.fused a b name).Threaded := by
  refine Threaded.without ((hg.withCells _).replaceNode _) ?_
  rw [ids_replaceNode]
  exact List.mem_map_of_mem ha

/-- Adding, connecting, deleting and inlining all keep the thread. -/
theorem Built.threaded (hg : g.Built) : g.Threaded := by
  induction hg with
  | empty cells => exact ⟨(Built.empty cells).numbered, fun e he => absurd he List.not_mem_nil⟩
  | add op target uses _ ih => exact ih.withNode op target uses
  | connect _ h' ih =>
      obtain ⟨_, _, rfl⟩ := connect_eq_ok h'
      exact ih.withEdge _
  | delete _ h' ih =>
      obtain ⟨hid, rfl⟩ := delete_eq_ok h'
      exact ih.without hid
  | inline _ h' ih =>
      obtain ⟨writer, reader, hw, _, rfl⟩ := inline_eq_ok h'
      exact ih.fused (mem_of_node? hw).1 reader _

/-! ### Lists of nodes -/

theorem Numbered.id_ne (hg : g.Numbered) (hnodes : g.nodes = pre ++ n :: post) :
    ∀ m ∈ pre ++ post, m.id ≠ n.id := by
  have hnodup := hg.nodup
  rw [ids, hnodes] at hnodup
  simp only [List.map_append, List.map_cons, List.nodup_middle, List.nodup_cons] at hnodup
  intro m hm e
  exact hnodup.1 (e ▸ List.map_append ▸ List.mem_map_of_mem hm)

theorem Numbered.nodes_without (hg : g.Numbered) (hnodes : g.nodes = pre ++ n :: post) :
    (g.without n.id).nodes = pre ++ post := by
  have hkeep : (pre ++ post).filter (fun m => m.id != n.id) = pre ++ post :=
    List.filter_eq_self.mpr (fun m hm => bne_iff_ne.mpr (hg.id_ne hnodes m hm))
  rw [List.filter_append] at hkeep
  simp only [Graph.without, hnodes, List.filter_append, List.filter_cons, bne_self_eq_false]
  exact hkeep

theorem Numbered.nodes_replaceNode (hg : g.Numbered) (hnodes : g.nodes = pre ++ n :: post)
    (hid : m.id = n.id) : (g.replaceNode m).nodes = pre ++ m :: post := by
  have hkeep : ∀ k ∈ pre ++ post, (if k.id = n.id then m else k) = k :=
    fun k hk => if_neg (hg.id_ne hnodes k hk)
  rw [List.forall_mem_append] at hkeep
  simp only [Graph.replaceNode, hnodes, List.map_append, List.map_cons, hid, if_true]
  rw [List.map_congr_left hkeep.1, List.map_congr_left hkeep.2, List.map_id', List.map_id']

theorem Joinable.nodes_eq (hj : g.Joinable a b name) (hg : g.Numbered) :
    ∃ pre post, g.nodes = pre ++ a :: b :: post := by
  obtain ⟨pre, rest, hnodes⟩ := List.append_of_mem hj.writer_mem
  have hids : g.ids = pre.map Node.id ++ a.id :: rest.map Node.id := by simp [ids, hnodes]
  have hhead := (mem_spine_iff_head? hg.nodup hids).mp hj.adjacent
  cases rest with
  | nil => cases hhead
  | cons m post =>
      have hm : m ∈ g.nodes := by simp [hnodes]
      obtain rfl := hg.eq_of_id hm hj.reader_mem (Option.some.inj hhead)
      exact ⟨pre, post, hnodes⟩

theorem Numbered.nodes_fused (hg : g.Numbered) (hnodes : g.nodes = pre ++ a :: b :: post)
    (name : String) : (g.fused a b name).nodes = pre ++ g.absorbed a b name :: post := by
  have hcells : ({ g with
      cells := (b.op.substitute name (a.stored name) g.cells).2.2 } : Graph).Numbered :=
    ⟨hg.increasing, hg.below⟩
  have hreader : g.nodes = (pre ++ [a]) ++ b :: post := by simp [hnodes]
  have hreplaced := hcells.nodes_replaceNode hreader (show (g.absorbed a b name).id = b.id from rfl)
  rw [List.append_assoc, List.singleton_append] at hreplaced
  exact (hcells.replaceNode _).nodes_without hreplaced

/-! ### Dead names -/

/-- No node of a list reads a name before one assigns it. -/
def Unread (name : String) : List Node → Prop
  | [] => True
  | n :: rest => name ∉ n.uses ∧ (n.target = some name ∨ Unread name rest)

theorem Threaded.edge_of_nodes (hg : g.Threaded)
    (hnodes : g.nodes = pre ++ a :: b :: post) : ⟨a.id, b.id⟩ ∈ g.edges := by
  apply hg.spine_mem
  have hids : g.ids = pre.map Node.id ++ a.id :: (b.id :: post.map Node.id) := by simp [ids, hnodes]
  rw [mem_spine_iff_head? hg.numbered.nodup hids]
  rfl

/-- What is dead behind a node is not read behind it before it is assigned again.  The induction is
on the nodes behind it, along the thread. -/
theorem Threaded.unread (hg : g.Threaded) (hnodes : g.nodes = pre ++ n :: post)
    (hdead : name ∉ g.liveness.value.behind n.id) : Unread name post := by
  induction post generalizing pre n with
  | nil => trivial
  | cons m rest ih =>
      have hn : n ∈ g.nodes := by simp [hnodes]
      have hm : m ∈ g.nodes := by simp [hnodes]
      have hbefore : name ∉ g.liveness.value.before m.id := fun h =>
        hdead (mem_behind_of_edge hg.numbered hn (hg.edge_of_nodes hnodes) h)
      refine ⟨fun h => hbefore (mem_before_of_uses hg.numbered hm h), ?_⟩
      by_cases htarget : m.target = some name
      · exact Or.inl htarget
      · have hnodes' : g.nodes = (pre ++ [n]) ++ m :: rest := by simp [hnodes]
        refine Or.inr (ih hnodes' (fun h => hbefore ?_))
        exact mem_before_of_behind hg.numbered hm h htarget

/-! ### Deleting dead nodes -/

theorem mem_nodes_without : m ∈ (g.without i).nodes ↔ m ∈ g.nodes ∧ m.id ≠ i := by
  simp [Graph.without]

/-- What was live around each node bounds what is live without a dead one: what is live before the
node behind it was live before the dead node as well. -/
theorem Threaded.bounds_without (hg : g.Threaded) (hn : n ∈ g.nodes)
    (hdead : g.liveness.value.isDead n = true) :
    Liveness.Bounds (g.without n.id) (fun id => { name | name ∈ g.liveness.value.before id })
      (fun id => { name | name ∈ g.liveness.value.behind id }) := by
  obtain ⟨name, htarget, hname⟩ := isDead_iff.mp hdead
  have hold := (Liveness.solution_liveness hg.numbered).bounds
  refine ⟨fun m hm => hold.uses m (mem_nodes_without.mp hm).1,
    fun m hm => hold.through m (mem_nodes_without.mp hm).1, fun m hm s hs x hx => ?_⟩
  have hm := (mem_nodes_without.mp hm).1
  rw [mem_successors, mem_edges_without] at hs
  obtain ⟨_, _, hedge | ⟨hedge, hnext⟩⟩ := hs
  · exact mem_behind_of_edge hg.numbered hm hedge hx
  · rw [hg.numbered.following?_iff (List.mem_map_of_mem hn)] at hnext
    have hbehind := mem_behind_of_edge hg.numbered hn (hg.spine_mem _ hnext) hx
    have hne : n.target ≠ some x := target_ne htarget (fun e => hname (e ▸ hbehind))
    exact mem_behind_of_edge hg.numbered hm hedge (mem_before_of_behind hg.numbered hn hbehind hne)

theorem Threaded.within_without (hg : g.Threaded) (hn : n ∈ g.nodes)
    (hdead : g.liveness.value.isDead n = true) :
    Liveness.Within (g.without n.id).liveness.value
      (fun id => { name | name ∈ g.liveness.value.before id })
      (fun id => { name | name ∈ g.liveness.value.behind id }) :=
  Liveness.within_liveness (hg.numbered.without n.id) (hg.bounds_without hn hdead)

theorem Threaded.isDead_without (hg : g.Threaded) (hn : n ∈ g.nodes)
    (hdead : g.liveness.value.isDead n = true) (hm : g.liveness.value.isDead m = true) :
    (g.without n.id).liveness.value.isDead m = true := by
  obtain ⟨name, htarget, hname⟩ := isDead_iff.mp hm
  refine isDead_iff.mpr ⟨name, htarget, fun h => hname ?_⟩
  exact (hg.within_without hn hdead).behind_mem m.id name h

theorem length_nodes_without (hn : n ∈ g.nodes) : (g.without n.id).nodes.length < g.nodes.length := by
  refine List.length_filter_lt_length_iff_exists.mpr ⟨n, hn, ?_⟩
  simp

theorem DeadStep.length_nodes (hstep : g.DeadStep h) : h.nodes.length < g.nodes.length := by
  obtain ⟨n, hn, _, rfl⟩ := hstep
  exact length_nodes_without hn

theorem dead?_eq_none_iff {l : Liveness} : g.dead? l = none ↔ ∀ n ∈ g.nodes, l.isDead n = false := by
  simp [dead?]

theorem not_deadStep_iff :
    (∀ k, ¬ g.DeadStep k) ↔ ∀ n ∈ g.nodes, g.liveness.value.isDead n = false := by
  constructor
  · intro h n hn
    rw [← Bool.not_eq_true]
    exact fun hdead => h _ ⟨n, hn, hdead, rfl⟩
  · rintro h k ⟨n, hn, hdead, _⟩
    rw [h n hn] at hdead
    cases hdead

/-- Each deletion takes a node away, so there is room for enough of them to leave no dead node. -/
theorem eliminateWithin_stops (g : Graph) {fuel : ℕ} (removed : ℕ) (hfuel : g.nodes.length < fuel) :
    ∀ k, ¬ (g.eliminateWithin fuel removed).value.1.DeadStep k := by
  induction fuel generalizing g removed with
  | zero => omega
  | succ fuel ih =>
      simp only [Graph.eliminateWithin, Logged.value_bind]
      cases hd : g.dead? g.liveness.value with
      | none => exact not_deadStep_iff.mpr (dead?_eq_none_iff.mp hd)
      | some id =>
          obtain ⟨n, hfind, rfl⟩ := Option.map_eq_some_iff.mp hd
          have hn := List.mem_of_find?_eq_some hfind
          have hlt := length_nodes_without hn
          simp only [Logged.value_bind, delete_of_mem (List.mem_map_of_mem hn)]
          exact ih (g.without n.id) (removed + 1) (by omega)

/-- **Deleting dead nodes leaves none.** -/
theorem eliminate_stops (g : Graph) : ∀ k, ¬ g.eliminate.value.1.DeadStep k := by
  rw [eliminate_value]
  exact eliminateWithin_stops g 0 (Nat.lt_succ_self _)

theorem eliminate_of_not_deadStep (h : ∀ k, ¬ g.DeadStep k) : g.eliminate.value = (g, .ok 0) := by
  rw [eliminate_value, Graph.eliminateWithin]
  simp only [Logged.value_bind, dead?_eq_none_iff.mpr (not_deadStep_iff.mp h), Logged.value_pure]

end Planner.Flow.Graph
