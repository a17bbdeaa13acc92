import Planner.Proofs.Flow.Threaded
import Planner.Proofs.Program.Structure

/-! # Dead assignments can be deleted in any order

A graph that follows code is determined by its nodes (`Follows.eq_of_node?`), for the nodes that are
left determine what is left of the code, and that determines the edges.  So two dead nodes can be
deleted in either order (`Follows.without_comm`), and as a dead node stays dead without another one,
two different deletions can be brought together by one more on each side (`Follows.deadStep_diamond`).

Main statement: `eliminate_eq_of_stopped`, whatever dead nodes of a program's graph are deleted, one
after the other until there is none, the graph that is left is the one that the pass leaves, and this
cannot go on for ever. -/

namespace Planner

open Relation Planner.Flow

namespace Flow.Graph

variable {g h k : Graph} {c : Code} {m n : Node}

/-! ### Graphs of the same code -/

/-- What a graph shows determines its nodes and edges. -/
theorem Shows.eq_of_shows (hg : g.Shows c) (hh : h.Shows c) (hnext : g.next = h.next)
    (hcells : g.cells = h.cells) : g = h := by
  have hnodes : g.nodes = h.nodes := hg.nodes_eq.trans hh.nodes_eq.symm
  have hedges : g.edges = h.edges :=
    SortedSet.ext_mem (fun e => (hg.mem_edges e).trans (hh.mem_edges e).symm)
  cases g
  cases h
  simp only at hnodes hedges hnext hcells
  rw [hnodes, hedges, hnext, hcells]

theorem Follows.eq_of_node? (hg : g.Follows c) (hh : h.Follows c)
    (hnode : ∀ i, g.node? i = h.node? i) (hnext : g.next = h.next) (hcells : g.cells = h.cells) :
    g = h := by
  have hview : c.view g = c.view h := Code.rewrite_congr (fun n _ => hnode n.id)
  exact hg.shows.eq_of_shows (hview ▸ hh.shows) hnext hcells

/-! ### Two deletions -/

theorem Follows.deadStep_without (hg : g.Follows c) (hm : m ∈ g.nodes) (hn : n ∈ g.nodes)
    (hne : m.id ≠ n.id) (hdm : g.liveness.value.isDead m = true)
    (hdn : g.liveness.value.isDead n = true) :
    (g.without m.id).DeadStep ((g.without m.id).without n.id) := by
  refine ⟨n, mem_nodes_without.mpr ⟨hn, hne.symm⟩, ?_, rfl⟩
  exact hg.shows.threaded.isDead_without hm hdm hdn

theorem Follows.without_comm (hg : g.Follows c) (hm : m ∈ g.nodes) (hn : n ∈ g.nodes)
    (hne : m.id ≠ n.id) (hdm : g.liveness.value.isDead m = true)
    (hdn : g.liveness.value.isDead n = true) :
    (g.without m.id).without n.id = (g.without n.id).without m.id := by
  have hmn := (hg.deadStep hm hdm).1.of_deadStep (hg.deadStep_without hm hn hne hdm hdn)
  have hnm := (hg.deadStep hn hdn).1.of_deadStep (hg.deadStep_without hn hm hne.symm hdn hdm)
  refine hmn.eq_of_node? hnm (fun i => ?_) rfl rfl
  rw [node?_without, node?_without, node?_without, node?_without, Option.bind_assoc,
    Option.bind_assoc]
  refine congrArg _ (funext fun k => ?_)
  unfold Code.drop
  split_ifs with hi hj hj
  · rfl
  · simp only [Option.bind_none, Option.bind_some, if_pos hi]
  · simp only [Option.bind_none, Option.bind_some, if_pos hj]
  · simp only [Option.bind_some, if_neg hi, if_neg hj]

/-- Different deletions are brought together by one more on each side. -/
theorem Follows.deadStep_diamond (hg : g.Follows c) (hh : g.DeadStep h) (hk : g.DeadStep k) :
    h = k ∨ ∃ d, h.DeadStep d ∧ k.DeadStep d := by
  obtain ⟨m, hm, hdm, rfl⟩ := hh
  obtain ⟨n, hn, hdn, rfl⟩ := hk
  by_cases hne : m.id = n.id
  · exact Or.inl (by rw [hne])
  · refine Or.inr ⟨_, hg.deadStep_without hm hn hne hdm hdn, ?_⟩
    rw [hg.without_comm hm hn hne hdm hdn]
    exact hg.deadStep_without hn hm (Ne.symm hne) hdn hdm

/-! ### Runs of deletions -/

theorem Follows.join_deadStep (hg : g.Follows c) (hh : ReflTransGen DeadStep g h)
    (hk : ReflTransGen DeadStep g k) : Join (ReflTransGen DeadStep) h k := by
  -- The diamond needs that the graph follows the code, so the steps carry this along.
  have hcarry : ∀ {h}, ReflTransGen DeadStep g h →
      h.Follows c ∧ ReflTransGen (fun a b => a.Follows c ∧ a.DeadStep b) g h := by
    intro h hrun
    induction hrun with
    | refl => exact ⟨hg, .refl⟩
    | tail _ hstep ih => exact ⟨ih.1.of_deadStep hstep, ih.2.tail ⟨ih.1, hstep⟩⟩
  have hdiamond : ∀ a b d : Graph, a.Follows c ∧ a.DeadStep b → a.Follows c ∧ a.DeadStep d →
      ∃ e, ReflGen (fun a b => a.Follows c ∧ a.DeadStep b) b e ∧
        ReflTransGen (fun a b => a.Follows c ∧ a.DeadStep b) d e := by
    rintro a b d ⟨ha, hb⟩ ⟨_, hd⟩
    rcases ha.deadStep_diamond hb hd with rfl | ⟨e, hbe, hde⟩
    · exact ⟨b, .refl, .refl⟩
    · exact ⟨e, .single ⟨ha.of_deadStep hb, hbe⟩, .single ⟨ha.of_deadStep hd, hde⟩⟩
  obtain ⟨e, hhe, hke⟩ := church_rosser hdiamond (hcarry hh).2 (hcarry hk).2
  have hforget : ∀ a b : Graph, a.Follows c ∧ a.DeadStep b → a.DeadStep b := fun _ _ h => h.2
  exact ⟨e, ReflTransGen.mono hforget _ _ hhe, ReflTransGen.mono hforget _ _ hke⟩

theorem eq_of_stopped (hstop : ∀ k, ¬ g.DeadStep k) (hrun : ReflTransGen DeadStep g h) : g = h := by
  cases hrun.cases_head with
  | inl h => exact h
  | inr h =>
      obtain ⟨k, hstep, _⟩ := h
      exact absurd hstep (hstop k)

theorem Follows.eq_of_stopped (hg : g.Follows c) (hh : ReflTransGen DeadStep g h)
    (hk : ReflTransGen DeadStep g k) (hhstop : ∀ e, ¬ h.DeadStep e) (hkstop : ∀ e, ¬ k.DeadStep e) :
    h = k := by
  obtain ⟨e, hhe, hke⟩ := hg.join_deadStep hh hk
  exact (Graph.eq_of_stopped hhstop hhe).trans (Graph.eq_of_stopped hkstop hke).symm

theorem Follows.eliminate_without (hg : g.Follows c) (hn : n ∈ g.nodes)
    (hdead : g.liveness.value.isDead n = true) :
    (g.without n.id).eliminate.value.1 = g.eliminate.value.1 := by
  obtain ⟨left, _, heq, hrun⟩ := g.eliminate_steps
  obtain ⟨left', _, heq', hrun'⟩ := (g.without n.id).eliminate_steps
  have hstop := g.eliminate_stops
  have hstop' := (g.without n.id).eliminate_stops
  rw [heq] at hstop ⊢
  rw [heq'] at hstop' ⊢
  exact hg.eq_of_stopped (.head ⟨n, hn, hdead, rfl⟩ hrun') hrun hstop' hstop

/-- Each deletion takes a node away, so they come to an end. -/
theorem not_deadStep_forever (run : ℕ → Graph) : ¬ ∀ i, (run i).DeadStep (run (i + 1)) := by
  intro hrun
  have hlength : ∀ i, (run i).nodes.length + i ≤ (run 0).nodes.length := by
    intro i
    induction i with
    | zero => exact Nat.le_refl _
    | succ i ih =>
        have := (hrun i).length_nodes
        omega
  have := hlength ((run 0).nodes.length + 1)
  omega

end Flow.Graph

namespace Program

variable {p : Program} {cells : Cells} {g : Graph}

/-- **Dead assignments can be deleted in any order.**  The pass deletes dead nodes until there is
none; any other way to do so ends too, and leaves the same graph. -/
theorem eliminate_eq_of_stopped (h : (p.toGraph cells).value = .ok g) :
    ∃ left removed, g.eliminate.value = (left, .ok removed) ∧
      ReflTransGen Graph.DeadStep g left ∧ (∀ k, ¬ left.DeadStep k) ∧
      (∀ other, ReflTransGen Graph.DeadStep g other → (∀ k, ¬ other.DeadStep k) → other = left) ∧
      ¬ ∃ run : ℕ → Graph, run 0 = g ∧ ∀ i, (run i).DeadStep (run (i + 1)) := by
  obtain ⟨left, removed, heq, hrun⟩ := g.eliminate_steps
  have hstop : ∀ k, ¬ left.DeadStep k := by
    have := g.eliminate_stops
    rwa [heq] at this
  refine ⟨left, removed, heq, hrun, hstop, fun other hother hostop => ?_, ?_⟩
  · exact (toGraph_follows h).eq_of_stopped hother hrun hostop hstop
  · rintro ⟨run, _, hforever⟩
    exact Graph.not_deadStep_forever run hforever

/-- A loop with two assignments that nothing reads; one of them alone reads a third, which is dead
once it is deleted. -/
def cascade : Program :=
  let x : Plan := .leaf {} (.scanTemp "x" .empty)
  let y : Plan := .leaf {} (.scanTemp "y" .empty)
  ⟨[.assign "x" (.leaf {} .singleton), .doWhile [.assign "y" x, .assign "z" y, .assign "w" x] x]⟩

theorem eliminate_eq_of_stopped_cascade : ∃ g left, (cascade.toGraph .empty).value = .ok g ∧
    g.eliminate.value.1 = left ∧
    ∀ other, ReflTransGen Graph.DeadStep g other → (∀ k, ¬ other.DeadStep k) → other = left := by
  have hgraph : ∃ g, (cascade.toGraph .empty).value = .ok g := ⟨_, rfl⟩
  obtain ⟨g, h⟩ := hgraph
  obtain ⟨left, _, heq, _, _, hunique, _⟩ := eliminate_eq_of_stopped h
  exact ⟨g, left, h, by rw [heq], hunique⟩

end Program

end Planner
