import Mathlib.Logic.Relation
import Planner.Proofs.Flow.Liveness
import Planner.Proofs.Flow.Rewriting

/-! # What the passes do

A pass is a run of steps: `Graph.DeadStep` deletes a dead node, `Graph.FuseStep` moves the plan of a
node into the next one.  A graph follows a piece of code (`Graph.Follows`) if it shows what is left of
it (`Code.view`: each node as the graph has it now) and that is proper.  Both steps keep this
(`Follows.deadStep`, `Follows.fuseStep`) and all nodes that assign nothing (`Follows.keeps_dead`,
`Follows.keeps_fuse`).

Main statements: `eliminate_steps` and `chain_steps`, the passes never fail and are runs of their
steps; `logicalPlan_value`, the plan of a graph that follows a piece of code is the sequence of the
plans of what the passes left of it. -/

namespace Planner.Flow

open Relation

/-! ### Rewriting proper code -/

namespace Code

variable {c : Code} {f : Node → Option Node}

/-- What is left of a piece of code in a graph. -/
def view (c : Code) (g : Graph) : Code := c.rewrite (fun n => g.node? n.id)

/-- Proper code stays proper if the replacements assign the same, are statements if the nodes were,
and list what they read. -/
theorem Proper.rewrite (hc : c.Proper)
    (hf : ∀ n ∈ c.nodes, ∀ m, f n = some m → m.target = n.target ∧ (n.IsStatement → m.IsStatement) ∧
      m.uses = m.op.temps)
    (htests : ∀ t ∈ c.tests, (f t).isSome) : (c.rewrite f).Proper := by
  refine ⟨?_, ?_, ?_⟩
  · intro n hn
    rw [steps_rewrite] at hn
    obtain ⟨m, hm, hfm⟩ := List.mem_filterMap.mp hn
    exact (hf m (mem_nodes_iff.mpr (Or.inl hm)) n hfm).2.1 (hc.statements m hm)
  · intro n hn
    rw [tests_rewrite] at hn
    obtain ⟨t, ht, rfl⟩ := List.mem_map.mp hn
    obtain ⟨m, hm⟩ := Option.isSome_iff_exists.mp (htests t ht)
    rw [hm, Option.getD_some, (hf t (mem_nodes_of_mem_tests ht) m hm).1]
    exact hc.conditions t ht
  · intro n hn
    rw [nodes_rewrite htests] at hn
    obtain ⟨m, hm, hfm⟩ := List.mem_filterMap.mp hn
    exact (hf m hm n hfm).2.2

end Code

namespace Graph

variable {g h : Graph} {c : Code} {a b n : Node} {name : String}

/-! ### Looking up nodes after a change -/

theorem node?_without (g : Graph) (i j : ℕ) :
    (g.without i).node? j = (g.node? j).bind (Code.drop i) := by
  simp only [node?, without, List.find?_filter]
  induction g.nodes with
  | nil => rfl
  | cons n rest ih =>
      by_cases hj : n.id = j
      · subst hj
        by_cases hi : n.id = i
        · have hrest : ∀ m ∈ rest, ¬ decide ((m.id != i) = true ∧ (m.id == n.id) = true) = true := by
            intro m _ hm
            simp only [bne_iff_ne, beq_iff_eq, decide_eq_true_eq] at hm
            exact hm.1 (hm.2.trans hi)
          rw [List.find?_cons_of_neg (by simp [hi]), List.find?_cons_of_pos (by simp),
            List.find?_eq_none.mpr hrest, Option.bind_some, Code.drop, if_pos hi]
        · rw [List.find?_cons_of_pos (by simp [hi]), List.find?_cons_of_pos (by simp),
            Option.bind_some, Code.drop_of_ne hi]
      · rw [List.find?_cons_of_neg (by simp [hj]), List.find?_cons_of_neg (by simp [hj]), ih]

theorem node?_replaceNode (g : Graph) (n : Node) (j : ℕ) :
    (g.replaceNode n).node? j = (g.node? j).map (Code.swap n) := by
  have hid : (fun m : Node => m.id == j) ∘ Code.swap n = fun m => m.id == j := by
    funext m
    rw [Function.comp_apply, Code.id_swap]
  have hnodes : (g.replaceNode n).nodes = g.nodes.map (Code.swap n) := rfl
  rw [node?, hnodes, List.find?_map, hid, node?]

theorem node?_fused (g : Graph) (writer reader : Node) (name : String) (j : ℕ) :
    (g.fused writer reader name).node? j = (g.node? j).bind (g.fuseNode writer reader name) := by
  rw [fused, node?_without, node?_replaceNode, Option.bind_map]
  rfl

/-! ### Graphs that follow code -/

/-- The graph shows what is left of a piece of code, and that is proper. -/
structure Follows (g : Graph) (c : Code) : Prop where
  shows : g.Shows (c.view g)
  proper : (c.view g).Proper

theorem Shows.view_eq (h : g.Shows c) : c.view g = c := by
  have hsome : ∀ n ∈ c.nodes, g.node? n.id = some n :=
    fun n hn => h.numbered.node?_of_mem (h.nodes_eq ▸ hn)
  rw [Code.view, Code.rewrite_congr hsome, Code.rewrite_some]

theorem Shows.follows (h : g.Shows c) (hc : c.Proper) : g.Follows c :=
  ⟨h.view_eq.symm ▸ h, h.view_eq.symm ▸ hc⟩

namespace Follows

theorem uses_eq (hg : g.Follows c) (hn : n ∈ g.nodes) : n.uses = n.op.temps :=
  hg.proper.uses_eq n (hg.shows.nodes_eq ▸ hn)

theorem op_eq (hg : g.Follows c) (hn : n ∈ g.nodes) (htarget : n.target = some name) :
    ∃ p, n.op = .unary {} (.storeTemp name) p :=
  hg.proper.op_eq (hg.shows.nodes_eq ▸ hn) htarget

theorem isSome_node? (hg : g.Follows c) : ∀ t ∈ c.tests, (g.node? t.id).isSome := by
  intro t ht
  by_contra hnone
  rw [Bool.not_eq_true, Option.isSome_eq_false_iff, Option.isNone_iff_eq_none] at hnone
  have hmem : t ∈ (c.view g).nodes := by
    apply Code.mem_nodes_of_mem_tests
    rw [Code.view, Code.tests_rewrite]
    exact List.mem_map.mpr ⟨t, ht, by rw [hnone]; rfl⟩
  rw [← hg.shows.nodes_eq] at hmem
  rw [hg.shows.numbered.node?_of_mem hmem] at hnone
  cases hnone

/-- After a change that is a rewriting of the nodes, the graph follows the code if it shows the
rewritten code and that is proper. -/
theorem rewrite (hg : g.Follows c) {f : Node → Option Node}
    (hnode : ∀ i, h.node? i = (g.node? i).bind f)
    (hshows : h.Shows ((c.view g).rewrite f))
    (hf : ∀ n ∈ g.nodes, ∀ m, f n = some m → m.target = n.target ∧ (n.IsStatement → m.IsStatement) ∧
      m.uses = m.op.temps)
    (htests : ∀ t ∈ (c.view g).tests, (f t).isSome) :
    h.Follows c ∧ c.view h = (c.view g).rewrite f := by
  have hview : c.view h = (c.view g).rewrite f := by
    rw [Code.view, Code.view, Code.rewrite_rewrite hg.isSome_node?]
    · exact Code.rewrite_congr (fun n _ => hnode n.id)
    · intro t ht m hm
      apply htests
      rw [Code.view, Code.tests_rewrite]
      exact List.mem_map.mpr ⟨t, ht, by rw [hm]; rfl⟩
  refine ⟨⟨hview ▸ hshows, hview ▸ hg.proper.rewrite ?_ htests⟩, hview⟩
  rw [← hg.shows.nodes_eq]
  exact hf

end Follows

/-! ### Deleting dead nodes -/

/-- Deletes a dead node. -/
def DeadStep (g h : Graph) : Prop :=
  ∃ n ∈ g.nodes, g.liveness.value.isDead n = true ∧ h = g.without n.id

theorem isDead_iff {l : Liveness} :
    l.isDead n = true ↔ ∃ name, n.target = some name ∧ name ∉ l.behind n.id := by
  unfold Liveness.isDead
  cases n.target <;> simp

/-- A dead node assigns something, so it closes no loop and the code stays proper without it. -/
theorem Follows.deadStep (hg : g.Follows c) (hn : n ∈ g.nodes)
    (hdead : g.liveness.value.isDead n = true) :
    (g.without n.id).Follows c ∧ c.view (g.without n.id) = (c.view g).rewrite (Code.drop n.id) := by
  obtain ⟨name, htarget, _⟩ := isDead_iff.mp hdead
  have hmem : n ∈ (c.view g).nodes := hg.shows.nodes_eq ▸ hn
  have htests := hg.proper.not_mem_tests hg.shows.nodup hmem htarget
  refine hg.rewrite (node?_without g n.id)
    (hg.shows.without (List.mem_map_of_mem hmem) htests) ?_ (Code.isSome_drop htests)
  intro m hm k hk
  unfold Code.drop at hk
  split_ifs at hk
  obtain rfl := Option.some.inj hk
  exact ⟨rfl, id, hg.uses_eq hm⟩

/-! ### Joining neighbours -/

/-- The second node comes right behind the first one, begins no loop, and reads what the first one
assigns, which is dead behind it. -/
structure Joinable (g : Graph) (a b : Node) (name : String) : Prop where
  writer_mem : a ∈ g.nodes
  reader_mem : b ∈ g.nodes
  adjacent : ⟨a.id, b.id⟩ ∈ spine g.ids
  header : g.isHeader b.id = false
  target : a.target = some name
  reads : name ∈ b.uses
  dead : name ∉ g.liveness.value.behind b.id

/-- Moves the plan of a node into the next one. -/
def FuseStep (g h : Graph) : Prop := ∃ a b name, g.Joinable a b name ∧ h = g.fused a b name

theorem mem_spine_of_mem_zip {l : List Node} (h : (a, b) ∈ l.zip (l.drop 1)) :
    ⟨a.id, b.id⟩ ∈ spine (l.map Node.id) := by
  induction l with
  | nil => cases h
  | cons n rest ih =>
      cases rest with
      | nil => cases h
      | cons m rest =>
          rcases List.mem_cons.mp h with heq | h
          · obtain ⟨rfl, rfl⟩ := Prod.mk.inj heq
            exact List.mem_cons_self
          · exact List.mem_cons_of_mem _ (ih h)

theorem joinable_of_link? {link : Link} (hab : (a, b) ∈ g.nodes.zip (g.nodes.drop 1))
    (hl : g.link? g.liveness.value a b = some link) :
    ∃ name, link = ⟨a.id, b.id, name⟩ ∧ g.Joinable a b name := by
  unfold link? at hl
  split_ifs at hl with hedge
  rw [Bool.or_eq_true, not_or, Bool.not_eq_true, Bool.not_eq_true] at hedge
  cases ht : a.target with
  | none => rw [ht] at hl; cases hl
  | some name =>
      rw [ht] at hl
      simp only at hl
      split_ifs at hl with huse
      refine ⟨name, (Option.some.inj hl).symm, (List.of_mem_zip hab).1, ?_, ?_, hedge.1, ht,
        huse.1, huse.2⟩
      · exact List.mem_of_mem_drop (List.of_mem_zip hab).2
      · exact mem_spine_of_mem_zip hab

theorem Joinable.id_ne (hj : g.Joinable a b name) (hg : g.Numbered) : a.id ≠ b.id :=
  Nat.ne_of_lt (source_lt_target hg.increasing hj.adjacent)

theorem substitute_unary (notes : Notes) (op : Unary) (p : Plan) (name : String) (r : Plan)
    (table : Cells) : ((Plan.unary notes op p).substitute name r table).1 =
      .unary notes op (p.substitute name r table).1 := rfl

theorem isStatement_absorbed (hb : b.IsStatement) : (g.absorbed a b name).IsStatement := by
  rcases hb with ⟨target, p, ht, hop⟩ | ⟨key, p, ht, hop⟩
  · refine Or.inl ⟨target, (p.substitute name (a.stored name) g.cells).1, ht, ?_⟩
    rw [absorbed, hop, substitute_unary]
  · refine Or.inr ⟨key, (p.substitute name (a.stored name) g.cells).1, ht, ?_⟩
    rw [absorbed, hop, substitute_unary]

theorem stored_eq {p : Plan} (hop : a.op = .unary {} (.storeTemp name) p) : a.stored name = p := by
  rw [Node.stored, hop]
  simp only [if_true]

theorem uses_absorbed {p : Plan} (hop : a.op = .unary {} (.storeTemp name) p)
    (ha : a.uses = a.op.temps) (hb : b.uses = b.op.temps) (hname : name ∈ b.uses) :
    (g.absorbed a b name).uses = (g.absorbed a b name).op.temps := by
  apply SortedSet.ext_mem
  intro x
  have hname' : name ∈ b.op.temps := hb ▸ hname
  simp only [absorbed, SortedSet.mem_union, SortedSet.mem_erase]
  rw [Plan.mem_temps_substitute, stored_eq hop, ha, hb, hop, Plan.mem_temps_unary]
  tauto

/-- A node that is moved into the next one assigns something, so it closes no loop. -/
theorem Follows.fuseStep (hg : g.Follows c) (hj : g.Joinable a b name) :
    (g.fused a b name).Follows c ∧
      c.view (g.fused a b name) = (c.view g).rewrite (g.fuseNode a b name) := by
  obtain ⟨ha, hb, _, _, htarget, hname, _⟩ := hj
  have hmem : a ∈ (c.view g).nodes := hg.shows.nodes_eq ▸ ha
  have hnodup := hg.shows.nodup
  have htests := hg.proper.not_mem_tests hnodup hmem htarget
  obtain ⟨p, hop⟩ := hg.op_eq ha htarget
  refine hg.rewrite (node?_fused g a b name)
    (hg.shows.fused b name (List.mem_map_of_mem hmem) htests) ?_ (isSome_fuseNode b name htests)
  intro n hn m hm
  by_cases hna : n.id = a.id
  · rw [fuseNode, Code.drop, Code.id_swap, if_pos hna] at hm
    cases hm
  · rw [fuseNode_of_ne hna] at hm
    obtain rfl := Option.some.inj hm
    unfold Code.swap
    split_ifs with hnb
    · obtain rfl : n = b := hg.shows.numbered.eq_of_id hn hb hnb
      exact ⟨rfl, isStatement_absorbed, uses_absorbed hop (hg.uses_eq ha) (hg.uses_eq hn) hname⟩
    · exact ⟨rfl, id, hg.uses_eq hn⟩

/-- The reader of a pair really reads the name, so the writer can be moved into it. -/
theorem Follows.inline_joinable (hg : g.Follows c) (hj : g.Joinable a b name) :
    b.op.reads name ≠ 0 ∧ (g.inline a.id b.id name).value = .ok (g.fused a b name) := by
  have hreads : b.op.reads name ≠ 0 := by
    rw [Ne, Plan.reads_eq_zero_iff, not_not]
    exact hg.uses_eq hj.reader_mem ▸ hj.reads
  have hnum := hg.shows.numbered
  have hinline := inline_value name (hnum.node?_of_mem hj.writer_mem)
    (hnum.node?_of_mem hj.reader_mem)
  rw [if_neg hreads] at hinline
  exact ⟨hreads, hinline⟩

/-! ### The passes as runs of steps -/

/-- The nodes that assign nothing stay, and no node comes in or changes what it assigns. -/
structure Keeps (g h : Graph) : Prop where
  origin : ∀ i n, h.node? i = some n → ∃ m, g.node? i = some m ∧ m.target = n.target
  stays : ∀ i n, g.node? i = some n → n.target = none → ∃ m, h.node? i = some m ∧ m.target = none

theorem Keeps.refl (g : Graph) : g.Keeps g :=
  ⟨fun _ n hn => ⟨n, hn, rfl⟩, fun _ n hn ht => ⟨n, hn, ht⟩⟩

theorem Keeps.trans {k : Graph} (h₁ : g.Keeps h) (h₂ : h.Keeps k) : g.Keeps k := by
  refine ⟨fun i n hn => ?_, fun i n hn ht => ?_⟩
  · obtain ⟨m, hm, htarget⟩ := h₂.origin i n hn
    obtain ⟨m', hm', htarget'⟩ := h₁.origin i m hm
    exact ⟨m', hm', htarget'.trans htarget⟩
  · obtain ⟨m, hm, htarget⟩ := h₁.stays i n hn ht
    exact h₂.stays i m hm htarget

theorem keeps_without (hg : g.Numbered) (hn : n ∈ g.nodes) (htarget : n.target = some name) :
    g.Keeps (g.without n.id) := by
  refine ⟨fun i m hm => ?_, fun i m hm ht => ?_⟩
  · rw [node?_without, Option.bind_eq_some_iff] at hm
    obtain ⟨k, hk, hdrop⟩ := hm
    unfold Code.drop at hdrop
    split_ifs at hdrop
    exact ⟨k, hk, by rw [Option.some.inj hdrop]⟩
  · have hne : m.id ≠ n.id := by
      intro e
      have := hg.eq_of_id (mem_of_node? hm).1 hn e
      rw [this, htarget] at ht
      cases ht
    exact ⟨m, by rw [node?_without, hm, Option.bind_some, Code.drop_of_ne hne], ht⟩

theorem keeps_replaceNode (hg : g.Numbered) (hn : n ∈ g.nodes) {m : Node} (hid : m.id = n.id)
    (htarget : m.target = n.target) : g.Keeps (g.replaceNode m) := by
  have hswap : ∀ k ∈ g.nodes, (Code.swap m k).target = k.target := by
    intro k hk
    unfold Code.swap
    split_ifs with hkm
    · rw [hg.eq_of_id hk hn (hkm.trans hid), htarget]
    · rfl
  refine ⟨fun i k hk => ?_, fun i k hk ht => ?_⟩
  · rw [node?_replaceNode, Option.map_eq_some_iff] at hk
    obtain ⟨k', hk', rfl⟩ := hk
    exact ⟨k', hk', (hswap k' (mem_of_node? hk').1).symm⟩
  · refine ⟨Code.swap m k, by rw [node?_replaceNode, hk]; rfl, ?_⟩
    rw [hswap k (mem_of_node? hk).1, ht]

theorem keeps_withCells (g : Graph) (cells : Cells) : g.Keeps { g with cells := cells } :=
  ⟨(Keeps.refl g).origin, (Keeps.refl g).stays⟩

theorem keeps_fused (hg : g.Numbered) (hj : g.Joinable a b name) :
    g.Keeps (g.fused a b name) := by
  have hcells := keeps_withCells g (b.op.substitute name (a.stored name) g.cells).2.2
  have hnum : ({ g with
      cells := (b.op.substitute name (a.stored name) g.cells).2.2 } : Graph).Numbered :=
    ⟨hg.increasing, hg.below⟩
  have hreplace := keeps_replaceNode (m := g.absorbed a b name) hnum hj.reader_mem rfl rfl
  have hmem : a ∈ ({ g with
      cells := (b.op.substitute name (a.stored name) g.cells).2.2 }.replaceNode
        (g.absorbed a b name)).nodes :=
    List.mem_map.mpr ⟨a, hj.writer_mem, if_neg (hj.id_ne hg)⟩
  have hwithout := keeps_without (hnum.replaceNode _) hmem hj.target
  exact (hcells.trans hreplace).trans hwithout

theorem Follows.of_deadStep (hg : g.Follows c) (hstep : g.DeadStep h) : h.Follows c := by
  obtain ⟨n, hn, hdead, rfl⟩ := hstep
  exact (hg.deadStep hn hdead).1

theorem Follows.keeps_dead (hg : g.Follows c) (hstep : g.DeadStep h) : g.Keeps h := by
  obtain ⟨n, hn, hdead, rfl⟩ := hstep
  obtain ⟨name, htarget, _⟩ := isDead_iff.mp hdead
  exact keeps_without hg.shows.numbered hn htarget

theorem Follows.of_fuseStep (hg : g.Follows c) (hstep : g.FuseStep h) : h.Follows c := by
  obtain ⟨a, b, name, hj, rfl⟩ := hstep
  exact (hg.fuseStep hj).1

theorem Follows.keeps_fuse (hg : g.Follows c) (hstep : g.FuseStep h) : g.Keeps h := by
  obtain ⟨a, b, name, hj, rfl⟩ := hstep
  exact keeps_fused hg.shows.numbered hj

/-- Deletes a dead node or joins neighbours. -/
def PassStep (g h : Graph) : Prop := g.DeadStep h ∨ g.FuseStep h

theorem Follows.passStep (hg : g.Follows c) (hstep : g.PassStep h) : h.Follows c ∧ g.Keeps h := by
  rcases hstep with hstep | hstep
  · exact ⟨hg.of_deadStep hstep, hg.keeps_dead hstep⟩
  · exact ⟨hg.of_fuseStep hstep, hg.keeps_fuse hstep⟩

/-- What both kinds of steps keep, a run of steps keeps. -/
theorem Follows.passRun (hg : g.Follows c) (hrun : ReflTransGen PassStep g h) :
    h.Follows c ∧ g.Keeps h := by
  induction hrun with
  | refl => exact ⟨hg, Keeps.refl g⟩
  | tail _ hstep ih =>
      obtain ⟨hfollows, hkeeps⟩ := ih.1.passStep hstep
      exact ⟨hfollows, ih.2.trans hkeeps⟩

theorem passRun_of_deadSteps (hrun : ReflTransGen DeadStep g h) : ReflTransGen PassStep g h :=
  ReflTransGen.mono (fun _ _ => Or.inl) _ _ hrun

theorem eliminateWithin_steps (g : Graph) (fuel removed : ℕ) :
    ∃ h count, (g.eliminateWithin fuel removed).value = (h, .ok count) ∧ ReflTransGen DeadStep g h := by
  induction fuel generalizing g removed with
  | zero => exact ⟨g, removed, rfl, .refl⟩
  | succ fuel ih =>
      simp only [Graph.eliminateWithin, Logged.value_bind]
      cases hd : g.dead? g.liveness.value with
      | none => exact ⟨g, removed, rfl, .refl⟩
      | some id =>
          obtain ⟨n, hfind, rfl⟩ := Option.map_eq_some_iff.mp hd
          have hn := List.mem_of_find?_eq_some hfind
          have hstep : g.DeadStep (g.without n.id) := ⟨n, hn, List.find?_some hfind, rfl⟩
          obtain ⟨h, count, heq, hrun⟩ := ih (g.without n.id) (removed + 1)
          refine ⟨h, count, ?_, .head hstep hrun⟩
          simp only [Logged.value_bind, delete_of_mem (List.mem_map_of_mem hn)]
          exact heq

/-- Deleting dead nodes never fails and is a run of deletions. -/
theorem eliminate_steps (g : Graph) :
    ∃ h count, g.eliminate.value = (h, .ok count) ∧ ReflTransGen DeadStep g h := by
  rw [eliminate_value]
  exact eliminateWithin_steps g _ 0

theorem chainWithin_steps (hg : g.Follows c) (fuel count : ℕ) :
    ∃ h total, (g.chainWithin fuel count).value = (h, .ok total) ∧ ReflTransGen FuseStep g h := by
  induction fuel generalizing g count with
  | zero => exact ⟨g, count, rfl, .refl⟩
  | succ fuel ih =>
      simp only [Graph.chainWithin, Logged.value_bind]
      cases hl : g.firstLink? g.liveness.value with
      | none => exact ⟨g, count, rfl, .refl⟩
      | some link =>
          obtain ⟨⟨a, b⟩, hab, hlink⟩ := List.exists_of_findSome?_eq_some hl
          obtain ⟨name, rfl, hj⟩ := joinable_of_link? hab hlink
          have hstep : g.FuseStep (g.fused a b name) := ⟨a, b, name, hj, rfl⟩
          obtain ⟨h, total, heq, hrun⟩ := ih (hg.of_fuseStep hstep) (count + 1)
          refine ⟨h, total, ?_, .head hstep hrun⟩
          simp only [Logged.value_bind, (hg.inline_joinable hj).2]
          exact heq

/-- Joining neighbours never fails on a graph that follows code, and is a run of joins. -/
theorem chain_steps (hg : g.Follows c) :
    ∃ h count, g.chain.value = (h, .ok count) ∧ ReflTransGen FuseStep g h := by
  rw [chain_value]
  exact chainWithin_steps hg _ 0

/-! ### The plan -/

/-- The graph after the first pass, if it is wanted. -/
def pruned (config : Config) (g : Graph) : Graph := if config.deadCode then g.eliminate.value.1 else g

/-- The graph after the passes that are wanted. -/
def optimized (config : Config) (g : Graph) : Graph :=
  if config.chaining then (g.pruned config).chain.value.1 else g.pruned config

theorem pruned_steps (config : Config) (g : Graph) :
    ReflTransGen DeadStep g (g.pruned config) ∧
      (runPass config.deadCode eliminate g).value = (g.pruned config, .ok ()) := by
  obtain ⟨h, count, heq, hrun⟩ := g.eliminate_steps
  unfold pruned runPass
  cases config.deadCode with
  | false => exact ⟨.refl, rfl⟩
  | true =>
      simp only [if_true, Logged.value_bind, heq]
      exact ⟨hrun, rfl⟩

theorem optimized_steps (config : Config) (hg : (g.pruned config).Follows c) :
    ReflTransGen FuseStep (g.pruned config) (g.optimized config) ∧
      (runPass config.chaining chain (g.pruned config)).value = (g.optimized config, .ok ()) := by
  obtain ⟨h, count, heq, hrun⟩ := chain_steps hg
  unfold optimized runPass
  cases config.chaining with
  | false => exact ⟨.refl, rfl⟩
  | true =>
      simp only [if_true, Logged.value_bind, heq]
      exact ⟨hrun, rfl⟩

theorem Follows.pruned (config : Config) (hg : g.Follows c) :
    (g.pruned config).Follows c ∧ g.Keeps (g.pruned config) :=
  hg.passRun (passRun_of_deadSteps (pruned_steps config g).1)

theorem Follows.passRun_optimized (config : Config) (hg : g.Follows c) :
    ReflTransGen PassStep g (g.optimized config) :=
  (passRun_of_deadSteps (pruned_steps config g).1).trans
    (ReflTransGen.mono (fun _ _ => Or.inr) _ _ (optimized_steps config (hg.pruned config).1).1)

theorem Follows.optimized (config : Config) (hg : g.Follows c) :
    (g.optimized config).Follows c ∧ g.Keeps (g.optimized config) :=
  hg.passRun (hg.passRun_optimized config)

/-- **The plan of a graph that follows code** is the sequence of the plans that the passes left. -/
theorem logicalPlan_value (config : Config) (hg : g.Follows c) :
    (g.logicalPlan config).value = (g.optimized config,
      .ok (.nary {} .sequence (c.view (g.optimized config)).plans)) := by
  have hpruned := (hg.pruned config).1
  rw [logicalPlan, Logged.value_bind, (pruned_steps config g).2]
  simp only [Logged.value_bind]
  rw [(optimized_steps config hpruned).2]
  simp only [Logged.value_bind, Logged.value_pure]
  rw [(hg.optimized config).1.shows.toPlan]

end Graph

end Planner.Flow
