import Planner.Proofs.Flow.Convergence
import Planner.Proofs.Program.Structure

/-! # Sweeps over the graphs of programs

The loops of a program are nested, and the passes leave them so, however many nodes they take out of
them: what is left of a program's code is code again, and its tests are all there.

Main statement: `liveness_converges`, liveness on the graph of a program, and on all that the passes
make of it, takes at most three sweeps, and two if the program has no loops. -/

namespace Planner

open Planner.Flow Relation

namespace Statement

theorem tests_codeAll (cells : Cells) {l : List Statement}
    (h : ∀ body condition, doWhile body condition ∉ l) (temps : Temps) (i : ℕ) :
    (codeAll cells l temps i).tests = [] := by
  induction l generalizing temps i with
  | nil => rfl
  | cons s rest ih =>
      have hrest := ih (fun body condition hs => h body condition (List.mem_cons_of_mem s hs))
      rw [codeAll, Code.tests_append, hrest, List.append_nil]
      cases s with
      | assign target plan => rfl
      | store key plan => rfl
      | doWhile body condition => exact absurd List.mem_cons_self (h body condition)

end Statement

theorem Flow.Graph.Follows.jumps_eq_nil {g : Graph} {c : Code} (hg : g.Follows c)
    (hnone : c.tests = []) : g.jumps = [] := by
  apply hg.shows.jumps_eq_nil
  rw [Code.view, Code.tests_rewrite, hnone, List.map_nil]

namespace Program

variable {p : Program} {cells : Cells} {g left : Graph}

/-- **Liveness takes at most three sweeps.**  On the graph of a program, and on every graph that
deletions of dead nodes and joins of neighbours make of it, the sweeps end, their number is the one in
the log, and it is at most three, at most two if the program has no loops. -/
theorem liveness_converges (h : (p.toGraph cells).value = .ok g)
    (hrun : ReflTransGen Graph.PassStep g left) :
    ∃ count, left.liveness.log =
        [⟨.debug, "Liveness converged after " ++ toString count ++ " iterations"⟩] ∧
      Liveness.Sweeps left (Liveness.start left) count left.liveness.value ∧ count ≤ 3 ∧
      ((∀ body condition, Statement.doWhile body condition ∉ p.statements) → count ≤ 2) := by
  have hleft : left.Follows (p.code cells) := ((toGraph_follows h).passRun hrun).1
  have hrepresented := hleft.shows.represented
  refine ⟨(Liveness.solve left).2, rfl, Liveness.solve_sweeps hleft.shows.numbered,
    hrepresented.solve_le_three hleft.shows.nested_jumps, ?_⟩
  intro hloops
  apply hrepresented.solve_le_two
  exact hleft.jumps_eq_nil (Statement.tests_codeAll cells hloops [] 0)

/-- A loop that reads, behind its first node, what it assigns in its last one; another assignment in
it is read nowhere. -/
def refilled : Program :=
  let one : Plan := .leaf {} .singleton
  let x : Plan := .leaf {} (.scanTemp "x" .empty)
  ⟨[.assign "x" one,
    .doWhile [.store ⟨"public", "adhoc", "r"⟩ one, .assign "y" one,
      .store ⟨"public", "adhoc", "s"⟩ x, .assign "x" one] one]⟩

/-- The third sweep is needed there: what is read in the next round is found at the end of the loop in
the second one. -/
theorem liveness_converges_refilled : ∃ g left : Graph, (refilled.toGraph .empty).value = .ok g ∧
    ReflTransGen Graph.PassStep g left ∧ left.ids = [0, 1, 3, 4, 5] ∧
    (Liveness.solve left).2 = 3 ∧ ∃ count, left.liveness.log =
        [⟨.debug, "Liveness converged after " ++ toString count ++ " iterations"⟩] ∧ count ≤ 3 := by
  have hgraph : ∃ g, (refilled.toGraph .empty).value = .ok g ∧
      g.eliminate.value.1.ids = [0, 1, 3, 4, 5] ∧ (Liveness.solve g.eliminate.value.1).2 = 3 :=
    ⟨_, rfl, by decide +kernel, by decide +kernel⟩
  obtain ⟨g, h, hids, hthree⟩ := hgraph
  obtain ⟨left, _, heq, hdead⟩ := g.eliminate_steps
  rw [heq] at hids hthree
  have hrun := Graph.passRun_of_deadSteps hdead
  obtain ⟨count, hlog, _, hle, _⟩ := liveness_converges h hrun
  exact ⟨g, left, h, hrun, hids, hthree, count, hlog, hle⟩

end Program

end Planner
