import Planner.Proofs.Plan.Reads

/-! # Traversals and the recursion over inputs

The stack of a traversal can be cut anywhere: what comes from the upper part comes first
(`postorderFrom_append`).  So the traversal that lists a node after its inputs lists the inputs one
after the other, and then the node (`postorder_eq`), and whatever it lists it has listed the inputs of
before (`inputsFirst_postorder`). -/

namespace Planner.Plan

variable {p q : Plan}

theorem postorderFrom_append (s t : List (Plan × Bool)) :
    postorderFrom (s ++ t) = postorderFrom s ++ postorderFrom t := by
  induction s using postorderFrom.induct with
  | case1 => rw [postorderFrom, List.nil_append, List.nil_append]
  | case2 p rest ih =>
      rw [List.cons_append, postorderFrom, postorderFrom, ih, List.cons_append]
  | case3 p rest ih =>
      rw [List.cons_append, postorderFrom, postorderFrom, ← ih, List.append_assoc, List.cons_append]

theorem postorderFrom_map (ps : List Plan) :
    postorderFrom (ps.map (fun p => (p, false))) = ps.flatMap postorder := by
  induction ps with
  | nil => rw [List.map_nil, postorderFrom, List.flatMap_nil]
  | cons p rest ih =>
      rw [List.map_cons, ← List.singleton_append, postorderFrom_append, ih, List.flatMap_cons]
      rfl

/-- A node is listed after its inputs. -/
theorem postorder_eq (p : Plan) : p.postorder = p.inputs.flatMap postorder ++ [p] := by
  rw [postorder, postorderFrom, postorderFrom_append, postorderFrom_map, postorderFrom, postorderFrom]

theorem mem_postorder_self (p : Plan) : p ∈ p.postorder := by
  rw [postorder_eq]
  simp

/-- The nodes of a plan, listed after their inputs, under a change of each node that keeps the inputs'
places. -/
theorem postorder_map {g : Plan → Plan} (h : ∀ p, (g p).inputs = p.inputs.map g) (p : Plan) :
    (g p).postorder = p.postorder.map g := by
  induction p using induction_inputs with
  | step p ih =>
      rw [postorder_eq, h, postorder_eq p, List.map_append, List.flatMap_map, List.map_flatMap,
        List.flatMap_congr ih]
      rfl

/-! ### What is listed before a node -/

/-- The inputs of each plan of a list stand before it. -/
def InputsFirst (l : List Plan) : Prop :=
  ∀ before q after, l = before ++ q :: after → ∀ input ∈ q.inputs, input ∈ before

theorem InputsFirst.append {l m : List Plan} (hl : InputsFirst l) (hm : InputsFirst m) :
    InputsFirst (l ++ m) := by
  intro before q after h input hinput
  rcases List.append_eq_append_iff.mp h with ⟨more, rfl, hmore⟩ | ⟨more, rfl, hmore⟩
  · exact List.mem_append_right _ (hm more q after hmore input hinput)
  · cases more with
    | nil => exact List.mem_append_left _ (hm [] q after hmore.symm input hinput)
    | cons r more =>
        obtain ⟨rfl, rfl⟩ := List.cons.inj hmore
        exact hl before q more rfl input hinput

theorem inputsFirst_flatMap {ps : List Plan} (h : ∀ p ∈ ps, InputsFirst p.postorder) :
    InputsFirst (ps.flatMap postorder) := by
  induction ps with
  | nil =>
      intro before q after hnil
      simp at hnil
  | cons p rest ih =>
      rw [List.flatMap_cons]
      exact (h p List.mem_cons_self).append (ih (fun q hq => h q (List.mem_cons_of_mem p hq)))

/-- Whatever is listed, its inputs have been listed before. -/
theorem inputsFirst_postorder (p : Plan) : InputsFirst p.postorder := by
  induction p using induction_inputs with
  | step p ih =>
      rw [postorder_eq]
      intro before q after h input hinput
      rcases List.eq_nil_or_concat after with rfl | ⟨rest, last, rfl⟩
      · -- The last node is the plan itself, and its inputs end their own lists.
        obtain ⟨rfl, hq⟩ := List.append_inj' h rfl
        obtain rfl := List.singleton_inj.mp hq
        exact List.mem_flatMap.mpr ⟨input, hinput, mem_postorder_self input⟩
      · rw [List.concat_eq_append, ← List.cons_append, ← List.append_assoc] at h
        obtain ⟨hinputs, _⟩ := List.append_inj' h rfl
        exact inputsFirst_flatMap ih before q rest hinputs input hinput

end Planner.Plan
