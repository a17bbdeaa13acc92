import Planner.Proofs.Flow.Preservation
import Planner.Proofs.Program.Structure

/-! # Optimized plans do the same

Main statements: `equivalent_deadCode` and `equivalent_chaining`, the plan of a program does the same
with and without each of the passes, whatever the operators mean: both plans terminate in the same
environments, and where they do they emit the same values for the same keys in the same order. -/

namespace Planner

open Planner.Flow Interpretation

universe u

variable {V : Type u}

theorem Flow.Code.EmitsAs.equivalent {I : Interpretation V} {c d : Code} (h : c.EmitsAs I d) :
    I.Equivalent (.nary {} .sequence c.plans) (.nary {} .sequence d.plans) := by
  refine I.equivalent_of_run (fun rounds env => ?_)
  rw [run, run]
  exact h rounds env

/-- Relations as numbers of rows; loops go on as long as the condition has none. -/
def rowCounts : Interpretation ℕ where
  leaf := fun _ => 1
  unary := fun _ v => v
  binary := fun _ v w => v + w
  nary := fun _ vs => vs.length
  again := fun v => v == 0

namespace Program

variable {p : Program} {cells : Cells} {g : Graph}

theorem emits_nested : ∃ off,
    (nested.compile .empty { deadCode := false, chaining := false }).value = .ok off ∧
      rowCounts.Emits off.1 (fun _ => 0) [(⟨"public", "adhoc", "r"⟩, 1)] :=
  ⟨_, rfl, 1, rfl⟩

/-- **Deleting dead assignments keeps what a program does.** -/
theorem equivalent_deadCode (I : Interpretation V) (config : Config)
    (h : (p.toGraph cells).value = .ok g) :
    ∃ on off, (p.compile cells { config with deadCode := true, chaining := false }).value = .ok on ∧
      (p.compile cells { config with deadCode := false, chaining := false }).value = .ok off ∧
      I.Equivalent on.1 off.1 := by
  have hg := toGraph_follows h
  refine ⟨_, _, compile_value _ h, compile_value _ h, ?_⟩
  have hpruned := hg.emitsAs_pruned I { config with deadCode := true, chaining := false }
  exact (Code.EmitsAs.symm hpruned).equivalent

theorem equivalent_deadCode_nested : ∃ on,
    (nested.compile .empty { deadCode := true, chaining := false }).value = .ok on ∧
      rowCounts.Emits on.1 (fun _ => 0) [(⟨"public", "adhoc", "r"⟩, 1)] := by
  have hgraph : ∃ g, (nested.toGraph .empty).value = .ok g := ⟨_, rfl⟩
  obtain ⟨g, h⟩ := hgraph
  obtain ⟨on, off, hon, hoff, hequivalent⟩ := equivalent_deadCode rowCounts {} h
  obtain ⟨off', hoff', hemits⟩ := emits_nested
  obtain rfl := Except.ok.inj (hoff.symm.trans hoff')
  exact ⟨on, hon, hequivalent.emits rowCounts hemits⟩

/-- **Joining neighbours keeps what a program does.** -/
theorem equivalent_chaining (I : Interpretation V) (config : Config)
    (h : (p.toGraph cells).value = .ok g) :
    ∃ on off, (p.compile cells { config with chaining := true }).value = .ok on ∧
      (p.compile cells { config with chaining := false }).value = .ok off ∧
      I.Equivalent on.1 off.1 := by
  have hg := toGraph_follows h
  refine ⟨_, _, compile_value _ h, compile_value _ h, ?_⟩
  have hjoined := hg.emitsAs_optimized I { config with chaining := true }
  exact (Code.EmitsAs.symm hjoined).equivalent

theorem equivalent_chaining_nested : ∃ on,
    (nested.compile .empty { deadCode := false, chaining := true }).value = .ok on ∧
      rowCounts.Emits on.1 (fun _ => 0) [(⟨"public", "adhoc", "r"⟩, 1)] := by
  have hgraph : ∃ g, (nested.toGraph .empty).value = .ok g := ⟨_, rfl⟩
  obtain ⟨g, h⟩ := hgraph
  obtain ⟨on, off, hon, hoff, hequivalent⟩ := equivalent_chaining rowCounts { deadCode := false } h
  obtain ⟨off', hoff', hemits⟩ := emits_nested
  obtain rfl := Except.ok.inj (hoff.symm.trans hoff')
  exact ⟨on, hon, hequivalent.emits rowCounts hemits⟩

end Program

end Planner
