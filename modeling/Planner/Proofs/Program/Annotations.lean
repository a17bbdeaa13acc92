import Planner.Proofs.Program.Structure

/-! # What nodes note down about their plans

A node says which name it assigns and which names it reads; liveness and the passes go by that and do
not look at the plan.  The passes keep it up to date in two different ways: the plan of the reader is
rewritten as a tree, and the names it reads are counted together, those of the writer in place of the
one that is gone.  Both give the same (`uses_absorbed`), also where the writer reads the name that it
assigns.

Main statement: `annotations_kept`, whatever dead nodes of a program's graph are deleted and whatever
neighbours are joined, in any order, the notes say what the plans say, so that joining neighbours
never fails. -/

namespace Planner

open Relation Planner.Flow

namespace Flow.Graph

variable {g : Graph} {c : Code} {a b : Node} {name : String}

/-- Joining a pair puts the plan that was stored in place of all reads of the name, of which there is
one at least. -/
theorem Follows.inline_stored (hg : g.Follows c) (hj : g.Joinable a b name) :
    ∃ stored h merged, a.op = .unary {} (.storeTemp name) stored ∧ a.stored name = stored ∧
      (g.inline a.id b.id name).value = .ok h ∧ h.node? b.id = some merged ∧
      merged.op = (b.op.substitute name stored g.cells).1 ∧
      0 < (b.op.substitute name stored g.cells).2.1 := by
  obtain ⟨stored, hop⟩ := hg.op_eq hj.writer_mem hj.target
  obtain ⟨hreads, hinline⟩ := hg.inline_joinable hj
  have hmerged : (g.fused a b name).node? b.id = some (g.absorbed a b name) := by
    rw [node?_fused, hg.shows.numbered.node?_of_mem hj.reader_mem, Option.bind_some,
      fuseNode_of_ne (hj.id_ne hg.shows.numbered).symm]
    exact congrArg some (if_pos rfl)
  refine ⟨stored, _, _, hop, stored_eq hop, hinline, hmerged, ?_, ?_⟩
  · rw [absorbed, stored_eq hop]
  · rw [Plan.substitute_count]
    exact Nat.pos_of_ne_zero hreads

end Flow.Graph

namespace Program

variable {p : Program} {cells : Cells} {g left : Graph}

/-- **Notes stay true.**  After any deletions of dead nodes and any joins of neighbours, each node of
a program's graph lists exactly what its plan reads, and if it assigns a name the assignment is at the
root of its plan.  So a join of neighbours finds the plan that was stored, without the assignment
around it, and puts it in place of one read at least; the pairs that the pass chooses are such
neighbours, and the pass gives a result. -/
theorem annotations_kept (h : (p.toGraph cells).value = .ok g)
    (hrun : ReflTransGen Graph.PassStep g left) :
    (∀ n ∈ left.nodes, n.uses = n.op.temps ∧
        ∀ name, n.target = some name → ∃ stored, n.op = .unary {} (.storeTemp name) stored) ∧
      (∀ a b name, left.Joinable a b name → ∃ stored joined merged,
        a.op = .unary {} (.storeTemp name) stored ∧ a.stored name = stored ∧
        (left.inline a.id b.id name).value = .ok joined ∧ joined.node? b.id = some merged ∧
        merged.op = (b.op.substitute name stored left.cells).1 ∧
        0 < (b.op.substitute name stored left.cells).2.1) ∧
      (∀ link, left.firstLink? left.liveness.value = some link →
        ∃ a b, link = ⟨a.id, b.id, link.name⟩ ∧ left.Joinable a b link.name) ∧
      ∃ joined count, left.chain.value = (joined, .ok count) ∧
        ReflTransGen Graph.FuseStep left joined := by
  have hleft := ((toGraph_follows h).passRun hrun).1
  refine ⟨fun n hn => ⟨hleft.uses_eq hn, fun name => hleft.op_eq hn⟩,
    fun a b name => hleft.inline_stored, fun link hl => ?_, Graph.chain_steps hleft⟩
  obtain ⟨⟨a, b⟩, hab, hlink⟩ := List.exists_of_findSome?_eq_some hl
  obtain ⟨name, rfl, hj⟩ := Graph.joinable_of_link? hab hlink
  exact ⟨a, b, rfl, hj⟩

/-- A relation that is assigned from itself, read twice, and stored as its product with itself, behind
an assignment that nothing reads. -/
def doubled : Program :=
  let x : Plan := .leaf {} (.scanTemp "x" .empty)
  ⟨[.assign "x" (.leaf {} .singleton), .assign "w" x, .assign "x" (.binary {} .unionAll x x),
    .store ⟨"public", "adhoc", "r"⟩ (.binary {} .crossProduct x x)]⟩

/-- Once the assignment that nothing reads is deleted, the other two are moved into the store, one
after the other. -/
theorem annotations_kept_doubled : ∃ g left joined count, (doubled.toGraph .empty).value = .ok g ∧
    ReflTransGen Graph.PassStep g left ∧ left.ids = [0, 2, 3] ∧
    (∀ n ∈ left.nodes, n.uses = n.op.temps) ∧ left.chain.value = (joined, .ok count) ∧
    joined.ids = [3] := by
  have hgraph : ∃ g, (doubled.toGraph .empty).value = .ok g ∧ g.eliminate.value.1.ids = [0, 2, 3] ∧
      g.eliminate.value.1.chain.value.1.ids = [3] :=
    ⟨_, rfl, by decide +kernel, by decide +kernel⟩
  obtain ⟨g, h, hids, hjoined⟩ := hgraph
  obtain ⟨left, _, heq, hdead⟩ := g.eliminate_steps
  rw [heq] at hids hjoined
  have hrun := Graph.passRun_of_deadSteps hdead
  obtain ⟨hnotes, _, _, joined, count, hchain, _⟩ := annotations_kept h hrun
  rw [hchain] at hjoined
  exact ⟨g, left, joined, count, h, hrun, hids, fun n hn => (hnotes n hn).1, hchain, hjoined⟩

end Program

end Planner
