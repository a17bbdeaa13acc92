import Planner.Proofs.Plan.Reads
import Planner.Flow.DeadCode
import Planner.Flow.Chaining

/-! # Graphs that can be built

`Graph.Built` holds of the graphs that come from the empty one by adding nodes and edges, deleting
nodes and inlining them, in any order; both passes stay within it (`Built.eliminate`,
`Built.chain`).  Built graphs are numbered (`Built.numbered`): the numbers of the nodes increase and
are below the next one, so a number stands for at most one node. -/

namespace Planner.Flow.Graph

variable {g h : Graph}

/-! ### Looking up nodes and edges -/

theorem mem_successors {id s : ℕ} : s ∈ g.successors id ↔ ⟨id, s⟩ ∈ g.edges := by
  simp only [successors, List.mem_map, List.mem_filter, beq_iff_eq, SortedSet.mem_toList]
  constructor
  · rintro ⟨e, ⟨he, rfl⟩, rfl⟩
    exact he
  · intro he
    exact ⟨_, ⟨he, rfl⟩, rfl⟩

theorem mem_predecessors {id p : ℕ} : p ∈ g.predecessors id ↔ ⟨p, id⟩ ∈ g.edges := by
  simp only [predecessors, List.mem_map, List.mem_filter, beq_iff_eq, SortedSet.mem_toList]
  constructor
  · rintro ⟨e, ⟨he, rfl⟩, rfl⟩
    exact he
  · intro he
    exact ⟨_, ⟨he, rfl⟩, rfl⟩

theorem mem_of_node? {id : ℕ} {n : Node} (hn : g.node? id = some n) : n ∈ g.nodes ∧ n.id = id :=
  ⟨List.mem_of_find?_eq_some hn, by simpa using List.find?_some hn⟩

theorem has_iff {id : ℕ} : g.has id = true ↔ id ∈ g.ids := by
  rw [has, List.contains_iff_mem]

theorem mem_ids_of_node? {id : ℕ} {n : Node} (hn : g.node? id = some n) : id ∈ g.ids := by
  obtain ⟨hmem, rfl⟩ := mem_of_node? hn
  exact List.mem_map_of_mem hmem

/-! ### Numbered graphs -/

/-- The numbers of the nodes increase and are below the next one. -/
structure Numbered (g : Graph) : Prop where
  increasing : g.ids.Pairwise (· < ·)
  below : ∀ i ∈ g.ids, i < g.next

theorem Numbered.nodup (hg : g.Numbered) : g.ids.Nodup := hg.increasing.imp Nat.ne_of_lt

theorem find?_id_of_mem {l : List Node} {n : Node} (hl : (l.map Node.id).Nodup) (hn : n ∈ l) :
    l.find? (fun m => m.id == n.id) = some n := by
  induction l with
  | nil => cases hn
  | cons m l ih =>
      rw [List.map_cons, List.nodup_cons] at hl
      rcases List.mem_cons.mp hn with rfl | hn
      · rw [List.find?_cons_of_pos (by simp)]
      · have hne : m.id ≠ n.id := fun e => hl.1 (e ▸ List.mem_map_of_mem hn)
        rw [List.find?_cons_of_neg (by simpa using hne), ih hl.2 hn]

theorem Numbered.node?_of_mem (hg : g.Numbered) {n : Node} (hn : n ∈ g.nodes) :
    g.node? n.id = some n := find?_id_of_mem hg.nodup hn

theorem Numbered.eq_of_id (hg : g.Numbered) {m n : Node} (hm : m ∈ g.nodes) (hn : n ∈ g.nodes)
    (hid : m.id = n.id) : m = n :=
  Option.some.inj ((hg.node?_of_mem hm).symm.trans (hid ▸ hg.node?_of_mem hn))

theorem ids_without (g : Graph) (id : ℕ) : (g.without id).ids = g.ids.filter (fun i => i != id) := by
  simp only [ids, without, List.filter_map]
  rfl

theorem ids_replaceNode (g : Graph) (n : Node) : (g.replaceNode n).ids = g.ids := by
  simp only [ids, replaceNode, List.map_map]
  refine List.map_congr_left (fun m _ => ?_)
  simp only [Function.comp_apply]
  split_ifs with h
  · exact h.symm
  · rfl

theorem Numbered.withNode (hg : g.Numbered) (op : Plan) (target : Option String) (uses : NameSet) :
    (g.withNode op target uses).Numbered := by
  have hids : (g.withNode op target uses).ids = g.ids ++ [g.next] := by simp [ids, Graph.withNode]
  refine ⟨?_, ?_⟩
  · rw [hids, List.pairwise_append]
    refine ⟨hg.increasing, List.pairwise_singleton _ _, fun i hi j hj => ?_⟩
    rw [List.mem_singleton.mp hj]
    exact hg.below i hi
  · intro i hi
    show i < g.next + 1
    rw [hids] at hi
    rcases List.mem_append.mp hi with hi | hi
    · have := hg.below i hi
      omega
    · rw [List.mem_singleton.mp hi]
      omega

theorem Numbered.without (hg : g.Numbered) (id : ℕ) : (g.without id).Numbered := by
  refine ⟨?_, ?_⟩
  · rw [ids_without]
    exact hg.increasing.filter _
  · intro i hi
    rw [ids_without] at hi
    exact hg.below i (List.mem_filter.mp hi).1

theorem Numbered.replaceNode (hg : g.Numbered) (n : Node) : (g.replaceNode n).Numbered := by
  refine ⟨?_, ?_⟩
  · rw [ids_replaceNode]
    exact hg.increasing
  · intro i hi
    rw [ids_replaceNode] at hi
    exact hg.below i hi

/-! ### What the operations give -/

theorem connect_eq_ok {s t : ℕ} (h' : g.connect s t = .ok h) :
    s ∈ g.ids ∧ t ∈ g.ids ∧ h = { g with edges := g.edges.insert ⟨s, t⟩ } := by
  unfold connect at h'
  split_ifs at h' with hs ht
  rw [Bool.not_eq_true', Bool.not_eq_false, has_iff] at hs ht
  exact ⟨hs, ht, (Except.ok.inj h').symm⟩

theorem connect_of_mem {s t : ℕ} (hs : s ∈ g.ids) (ht : t ∈ g.ids) :
    g.connect s t = .ok { g with edges := g.edges.insert ⟨s, t⟩ } := by
  rw [connect, has_iff.mpr hs, has_iff.mpr ht]
  rfl

theorem delete_eq_ok {id : ℕ} (h' : g.delete id = .ok h) : id ∈ g.ids ∧ h = g.without id := by
  unfold delete at h'
  split_ifs at h' with hid
  exact ⟨has_iff.mp hid, (Except.ok.inj h').symm⟩

theorem delete_of_mem {id : ℕ} (hid : id ∈ g.ids) : g.delete id = .ok (g.without id) := by
  rw [delete, has_iff.mpr hid]
  rfl

/-- A reader with a writer's plan in place of the reads of a name. -/
def absorbed (g : Graph) (writer reader : Node) (name : String) : Node :=
  { reader with
    op := (reader.op.substitute name (writer.stored name) g.cells).1
    uses := (reader.uses.erase name).union writer.uses }

/-- The graph with a writer moved into a reader. -/
def fused (g : Graph) (writer reader : Node) (name : String) : Graph :=
  ({ g with
      cells := (reader.op.substitute name (writer.stored name) g.cells).2.2 }.replaceNode
    (g.absorbed writer reader name)).without writer.id

/-- Inlining succeeds exactly if the reader reads the name. -/
theorem inline_value {s t : ℕ} {writer reader : Node} (name : String)
    (hw : g.node? s = some writer) (hr : g.node? t = some reader) :
    (g.inline s t name).value =
      if reader.op.reads name = 0 then .error (.inconsistentUses t name)
      else .ok (g.fused writer reader name) := by
  have hcount := reader.op.substitute_count name (writer.stored name) g.cells
  obtain ⟨_, hid⟩ := mem_of_node? hw
  unfold inline
  rw [hr, hw]
  simp only [hcount]
  split_ifs with h
  · rfl
  · have hmem : s ∈ g.ids := mem_ids_of_node? hw
    simp only [Logged.value_bind, Logged.value_pure]
    rw [delete_of_mem (by rw [ids_replaceNode]; exact hmem), ← hid]
    rfl

/-- Inlining that succeeds has found both nodes and moved the writer into the reader. -/
theorem inline_eq_ok {s t : ℕ} {name : String} (h' : (g.inline s t name).value = .ok h) :
    ∃ writer reader, g.node? s = some writer ∧ g.node? t = some reader ∧
      h = g.fused writer reader name := by
  cases hr : g.node? t with
  | none => rw [inline, hr] at h'; cases h'
  | some reader =>
      cases hw : g.node? s with
      | none => rw [inline, hr, hw] at h'; cases h'
      | some writer =>
          rw [inline_value name hw hr] at h'
          split_ifs at h'
          exact ⟨writer, reader, rfl, rfl, (Except.ok.inj h').symm⟩

/-! ### Building -/

/-- The graphs that the operations build. -/
inductive Built : Graph → Prop
  | empty (cells : Cells) : Built { Graph.empty with cells := cells }
  | add {g : Graph} (op : Plan) (target : Option String) (uses : NameSet) :
      Built g → Built (g.add op target uses).value
  | connect {g h : Graph} {s t : ℕ} : Built g → g.connect s t = .ok h → Built h
  | delete {g h : Graph} {id : ℕ} : Built g → g.delete id = .ok h → Built h
  | inline {g h : Graph} {s t : ℕ} {name : String} :
      Built g → (g.inline s t name).value = .ok h → Built h

theorem Built.numbered (hg : g.Built) : g.Numbered := by
  induction hg with
  | empty cells => exact ⟨List.Pairwise.nil, fun i hi => absurd hi List.not_mem_nil⟩
  | add op target uses _ ih => exact ih.withNode op target uses
  | connect _ h' ih =>
      obtain ⟨_, _, rfl⟩ := connect_eq_ok h'
      exact ⟨ih.increasing, ih.below⟩
  | delete _ h' ih =>
      obtain ⟨_, rfl⟩ := delete_eq_ok h'
      exact ih.without _
  | inline _ h' ih =>
      obtain ⟨writer, reader, _, _, rfl⟩ := inline_eq_ok h'
      refine Numbered.without (Numbered.replaceNode ?_ _) _
      exact ⟨ih.increasing, ih.below⟩

theorem eliminate_value (g : Graph) :
    g.eliminate.value = (g.eliminateWithin (g.nodes.length + 1) 0).value := by
  simp only [Graph.eliminate, Logged.value_bind]
  rcases (Graph.eliminateWithin (g.nodes.length + 1) 0 g).value with ⟨h, e | removed⟩
  · rfl
  · simp only
    split_ifs <;> rfl

theorem chain_value (g : Graph) :
    g.chain.value = (g.chainWithin (g.nodes.length + 1) 0).value := by
  simp only [Graph.chain, Logged.value_bind]
  rcases (Graph.chainWithin (g.nodes.length + 1) 0 g).value with ⟨h, e | fused⟩
  · rfl
  · simp only
    split_ifs <;> rfl

theorem Built.eliminateWithin (hg : g.Built) (fuel removed : ℕ) :
    (g.eliminateWithin fuel removed).value.1.Built := by
  induction fuel generalizing g removed with
  | zero => exact hg
  | succ fuel ih =>
      simp only [Graph.eliminateWithin, Logged.value_bind]
      cases g.dead? g.liveness.value with
      | none => exact hg
      | some id =>
          simp only [Logged.value_bind]
          cases hd : g.delete id with
          | error e => exact hg
          | ok h => exact ih (hg.delete hd) (removed + 1)

/-- Deleting dead nodes leaves a built graph. -/
theorem Built.eliminate (hg : g.Built) : g.eliminate.value.1.Built := by
  rw [eliminate_value]
  exact hg.eliminateWithin _ _

theorem Built.chainWithin (hg : g.Built) (fuel fused : ℕ) :
    (g.chainWithin fuel fused).value.1.Built := by
  induction fuel generalizing g fused with
  | zero => exact hg
  | succ fuel ih =>
      simp only [Graph.chainWithin, Logged.value_bind]
      cases g.firstLink? g.liveness.value with
      | none => exact hg
      | some link =>
          simp only [Logged.value_bind]
          cases hi : (g.inline link.writer link.reader link.name).value with
          | error e => exact hg
          | ok h => exact ih (hg.inline hi) (fused + 1)

/-- Joining neighbours leaves a built graph, also where it fails. -/
theorem Built.chain (hg : g.Built) : g.chain.value.1.Built := by
  rw [chain_value]
  exact hg.chainWithin _ _

end Planner.Flow.Graph
