import Mathlib.Data.List.Forall2
import Planner.Plan.Substitution

/-! # What a plan reads

`Plan.induction_inputs` is induction over plans in terms of `Plan.inputs`, which treats all numbers of
inputs alike; `foldState_eq` and `preorder_eq` state the walks in the same terms.  `mem_temps` says
what a plan reads in terms of its inputs, and `mem_temps_copy` that a copy reads the same.

`mem_temps_substitute` is the effect of a substitution on the reads: the substituted name goes and
what the replacement reads comes in.  `substitute_count` says that the count is the number of reads,
so it is zero exactly if the plan does not read the name (`reads_eq_zero_iff`), and then the plan stays
as it is (`substitute_of_not_mem`). -/

namespace Planner

theorem le_total_of_mem {n : ℕ} {l : List ℕ} (h : n ∈ l) : n ≤ total l := by
  induction l with
  | nil => cases h
  | cons m l ih =>
      rw [total_cons]
      rcases List.mem_cons.mp h with rfl | h
      · omega
      · have := ih h
        omega

theorem total_eq_zero_iff {l : List ℕ} : total l = 0 ↔ ∀ n ∈ l, n = 0 := by
  constructor
  · intro h n hn
    have := le_total_of_mem hn
    omega
  · intro h
    induction l with
    | nil => rfl
    | cons n l ih =>
        rw [total_cons, h n List.mem_cons_self, ih (fun m hm => h m (List.mem_cons_of_mem n hm))]

namespace Plan

/-! ### Induction over inputs -/

theorem size_lt_of_mem_inputs {p q : Plan} (h : q ∈ p.inputs) : q.size < p.size := by
  rw [size_eq p]
  have := le_total_of_mem (List.mem_map_of_mem (f := size) h)
  omega

/-- What passes from the inputs to a plan holds of all plans. -/
theorem induction_inputs {P : Plan → Prop} (step : ∀ p, (∀ q ∈ p.inputs, P q) → P p) (p : Plan) :
    P p := by
  induction hn : p.size using Nat.strongRecOn generalizing p with
  | ind n ih =>
      subst hn
      exact step p (fun q hq => ih q.size (size_lt_of_mem_inputs hq) q rfl)

theorem inputs_withInputs {p : Plan} {qs : List Plan} (h : qs.length = p.inputs.length) :
    (p.withInputs qs).inputs = qs := by
  cases p with
  | leaf notes op =>
      have : qs = [] := List.eq_nil_of_length_eq_zero h
      rw [this]
      rfl
  | unary notes op input =>
      obtain ⟨q, rfl⟩ := List.length_eq_one_iff.mp h
      rfl
  | binary notes op left right =>
      obtain ⟨q, r, rfl⟩ := List.length_eq_two.mp h
      rfl
  | nary notes op inputs => rfl

theorem withInputs_inputs (p : Plan) : p.withInputs p.inputs = p := by
  cases p <;> rfl

theorem temp?_withInputs (p : Plan) (qs : List Plan) : (p.withInputs qs).temp? = p.temp? := by
  unfold withInputs
  split <;> rfl

theorem foldState_eq {α σ : Type} (f : Plan → List α → σ → α × σ) (p : Plan) (s : σ) :
    foldState f p s = f p (foldStateAll f p.inputs s).1 (foldStateAll f p.inputs s).2 := by
  cases p <;> simp [foldState, foldStateAll, inputs]

theorem foldState_forall₂ {α σ : Type} {f : Plan → List α → σ → α × σ} {R : Plan → α → Prop}
    {ps : List Plan} (h : ∀ p ∈ ps, ∀ s, R p (foldState f p s).1) (s : σ) :
    List.Forall₂ R ps (foldStateAll f ps s).1 := by
  induction ps generalizing s with
  | nil => exact List.Forall₂.nil
  | cons p rest ih =>
      simp only [foldStateAll]
      refine List.Forall₂.cons (h p List.mem_cons_self s) ?_
      exact ih (fun q hq => h q (List.mem_cons_of_mem p hq)) _

/-- A relation that every node establishes from its inputs holds of the result of a walk. -/
theorem foldState_relates {α σ : Type} {f : Plan → List α → σ → α × σ} {R : Plan → α → Prop}
    (h : ∀ p as s, List.Forall₂ R p.inputs as → R p (f p as s).1) (p : Plan) (s : σ) :
    R p (foldState f p s).1 := by
  induction p using induction_inputs generalizing s with
  | step p ih =>
      rw [foldState_eq]
      exact h p _ _ (foldState_forall₂ ih s)

theorem foldStateAll_congr {α σ : Type} {f f' : Plan → List α → σ → α × σ} {ps : List Plan}
    (h : ∀ p ∈ ps, ∀ s, foldState f p s = foldState f' p s) (s : σ) :
    foldStateAll f ps s = foldStateAll f' ps s := by
  induction ps generalizing s with
  | nil => rfl
  | cons p rest ih =>
      have hrest := ih (fun q hq => h q (List.mem_cons_of_mem p hq))
      simp only [foldStateAll, h p List.mem_cons_self, hrest]

/-! ### Reads -/

theorem preorderFrom_append (s t : List Plan) :
    preorderFrom (s ++ t) = preorderFrom s ++ preorderFrom t := by
  induction s using preorderFrom.induct with
  | case1 => rw [preorderFrom, List.nil_append, List.nil_append]
  | case2 p rest ih =>
      rw [List.cons_append, preorderFrom, preorderFrom, ← List.append_assoc, ih, List.cons_append]

theorem preorderFrom_eq_flatMap (s : List Plan) : preorderFrom s = s.flatMap preorder := by
  induction s with
  | nil => rw [preorderFrom, List.flatMap_nil]
  | cons p rest ih =>
      rw [← List.singleton_append, preorderFrom_append, ih, List.flatMap_append,
        List.flatMap_singleton]
      rfl

theorem preorder_eq (p : Plan) : p.preorder = p :: p.inputs.flatMap preorder := by
  rw [preorder, preorderFrom, List.append_nil, preorderFrom_eq_flatMap]

/-- The nodes of a plan under a change of each node that keeps the inputs' places. -/
theorem preorder_map {g : Plan → Plan} (h : ∀ p, (g p).inputs = p.inputs.map g) (p : Plan) :
    (g p).preorder = p.preorder.map g := by
  induction p using induction_inputs with
  | step p ih =>
      rw [preorder_eq, h, preorder_eq p, List.map_cons, List.flatMap_map, List.map_flatMap,
        List.flatMap_congr ih]

/-- What is found at the nodes of a plan is found at the root, and then in the inputs. -/
theorem filterMap_preorder_eq {α : Type} (f : Plan → Option α) (p : Plan) : p.preorder.filterMap f =
    (f p).toList ++ p.inputs.flatMap (fun q => q.preorder.filterMap f) := by
  rw [preorder_eq, List.filterMap_cons, List.filterMap_flatMap]
  cases f p <;> rfl

theorem mem_filterMap_preorder {α : Type} {f : Plan → Option α} {p : Plan} {a : α} :
    a ∈ p.preorder.filterMap f ↔ f p = some a ∨ ∃ q ∈ p.inputs, a ∈ q.preorder.filterMap f := by
  rw [filterMap_preorder_eq, List.mem_append, Option.mem_toList, List.mem_flatMap]

/-- A plan reads what its root reads and what its inputs read. -/
theorem mem_temps {p : Plan} {name : String} :
    name ∈ p.temps ↔ p.temp? = some name ∨ ∃ q ∈ p.inputs, name ∈ q.temps := by
  simp only [temps, SortedSet.mem_ofList]
  exact mem_filterMap_preorder

theorem inputs_eq_nil_of_temp? {p : Plan} {name : String} (h : p.temp? = some name) :
    p.inputs = [] := by
  cases p with
  | leaf notes op => rfl
  | _ => cases h

theorem mem_temps_of_temp? {p : Plan} {name x : String} (h : p.temp? = some name) :
    x ∈ p.temps ↔ x = name := by
  rw [mem_temps, inputs_eq_nil_of_temp? h, h]
  simp [eq_comm]

/-- The reads of a plan with other inputs. -/
theorem mem_temps_withInputs {p : Plan} {qs : List Plan} {name : String}
    (h : qs.length = p.inputs.length) :
    name ∈ (p.withInputs qs).temps ↔ p.temp? = some name ∨ ∃ q ∈ qs, name ∈ q.temps := by
  rw [mem_temps, temp?_withInputs, inputs_withInputs h]

@[simp] theorem mem_temps_unary {notes : Notes} {op : Unary} {input : Plan} {name : String} :
    name ∈ (unary notes op input).temps ↔ name ∈ input.temps := by
  rw [mem_temps]
  simp [temp?, inputs]

theorem temps_unary (notes : Notes) (op : Unary) (input : Plan) :
    (unary notes op input).temps = input.temps :=
  SortedSet.ext_mem (fun _ => mem_temps_unary)

/-! ### Copies -/

theorem inputs_relinkRoot (moves : List (CellId × CellId)) (p : Plan) :
    (p.relinkRoot moves).inputs = p.inputs := by
  unfold relinkRoot
  split <;> rfl

theorem temp?_relinkRoot (moves : List (CellId × CellId)) (p : Plan) :
    (p.relinkRoot moves).temp? = p.temp? := by
  unfold relinkRoot
  split <;> rfl

theorem relink_eq (moves : List (CellId × CellId)) (p : Plan) :
    p.relink moves = (p.relinkRoot moves).withInputs (p.inputs.map (relink moves)) := by
  rw [relink, fold_eq]
  rfl

theorem inputs_relink (moves : List (CellId × CellId)) (p : Plan) :
    (p.relink moves).inputs = p.inputs.map (relink moves) := by
  rw [relink_eq]
  apply inputs_withInputs
  rw [List.length_map, inputs_relinkRoot]

theorem mem_temps_relink (moves : List (CellId × CellId)) (p : Plan) {name : String} :
    name ∈ (p.relink moves).temps ↔ name ∈ p.temps := by
  induction p using induction_inputs with
  | step p ih =>
      have htemp : (p.relink moves).temp? = p.temp? := by
        rw [relink_eq, temp?_withInputs, temp?_relinkRoot]
      rw [mem_temps, htemp, inputs_relink, mem_temps]
      constructor
      · rintro (h | ⟨_, hmem, h⟩)
        · exact Or.inl h
        · obtain ⟨q, hq, rfl⟩ := List.mem_map.mp hmem
          exact Or.inr ⟨q, hq, (ih q hq).mp h⟩
      · rintro (h | ⟨q, hq, h⟩)
        · exact Or.inl h
        · exact Or.inr ⟨_, List.mem_map_of_mem hq, (ih q hq).mpr h⟩

theorem mem_temps_withNotes {notes : Notes} {p : Plan} {name : String} :
    name ∈ (p.withNotes notes).temps ↔ name ∈ p.temps := by
  have htemp : (p.withNotes notes).temp? = p.temp? := by
    cases p with
    | leaf _ op => cases op <;> rfl
    | _ => rfl
  have hinputs : (p.withNotes notes).inputs = p.inputs := by cases p <;> rfl
  rw [mem_temps, htemp, hinputs, ← mem_temps]

/-- A copy reads what the plan reads. -/
theorem mem_temps_copy {p : Plan} {table : Cells} {name : String} :
    name ∈ (p.copy table).1.temps ↔ name ∈ p.temps := by
  unfold copy
  rw [mem_temps_withNotes, mem_temps_relink]

/-! ### Substitution -/

/-- What a substitution does at one node. -/
def substituteRoot (name : String) (replacement : Plan) (node : Plan) (inputs : List Plan)
    (s : ℕ × Cells) : Plan × ℕ × Cells :=
  if node.temp? = some name then ((replacement.copy s.2).1, s.1 + 1, (replacement.copy s.2).2)
  else (node.withInputs inputs, s)

theorem substitute_eq (p : Plan) (name : String) (replacement : Plan) (table : Cells) :
    p.substitute name replacement table =
      p.foldState (substituteRoot name replacement) (0, table) := rfl

/-- A relation between plans and what a substitution makes of them, node by node. -/
theorem substitute_relates {R : Plan → Plan → Prop} {name : String} {replacement : Plan}
    (hread : ∀ p table, p.temp? = some name → R p (replacement.copy table).1)
    (hkeep : ∀ p qs, p.temp? ≠ some name → List.Forall₂ R p.inputs qs → R p (p.withInputs qs))
    (p : Plan) (table : Cells) : R p (p.substitute name replacement table).1 := by
  rw [substitute_eq]
  refine foldState_relates (fun p qs s hqs => ?_) p (0, table)
  unfold substituteRoot
  split_ifs with h
  · exact hread p s.2 h
  · exact hkeep p qs h hqs

/-- A substitution takes the name away and brings in what the replacement reads. -/
theorem mem_temps_substitute {p replacement : Plan} {name x : String} {table : Cells} :
    x ∈ (p.substitute name replacement table).1.temps ↔
      (x ∈ p.temps ∧ x ≠ name) ∨ (name ∈ p.temps ∧ x ∈ replacement.temps) := by
  refine substitute_relates (R := fun p q => x ∈ q.temps ↔
    (x ∈ p.temps ∧ x ≠ name) ∨ (name ∈ p.temps ∧ x ∈ replacement.temps)) ?_ ?_ p table
  · intro p table h
    rw [mem_temps_copy, mem_temps_of_temp? h, mem_temps_of_temp? h]
    tauto
  · intro p qs h hqs
    rw [mem_temps_withInputs hqs.length_eq.symm, mem_temps (p := p), mem_temps (p := p)]
    have hmem : (∃ q ∈ qs, x ∈ q.temps) ↔ ∃ q ∈ p.inputs,
        (x ∈ q.temps ∧ x ≠ name) ∨ (name ∈ q.temps ∧ x ∈ replacement.temps) := by
      clear h
      generalize p.inputs = ps at hqs
      induction hqs with
      | nil => simp
      | cons hq _ ih => simp only [List.exists_mem_cons_iff, hq, ih]
    rw [hmem]
    constructor
    · rintro (hx | ⟨q, hq, ⟨hx, hne⟩ | ⟨hname, hx⟩⟩)
      · exact Or.inl ⟨Or.inl hx, fun e => h (e ▸ hx)⟩
      · exact Or.inl ⟨Or.inr ⟨q, hq, hx⟩, hne⟩
      · exact Or.inr ⟨Or.inr ⟨q, hq, hname⟩, hx⟩
    · rintro (⟨hx | ⟨q, hq, hx⟩, hne⟩ | ⟨hname | ⟨q, hq, hname⟩, hx⟩)
      · exact Or.inl hx
      · exact Or.inr ⟨q, hq, Or.inl ⟨hx, hne⟩⟩
      · exact absurd hname h
      · exact Or.inr ⟨q, hq, Or.inr ⟨hname, hx⟩⟩

/-- The number of places at which a plan reads a temporary relation. -/
def reads (name : String) (p : Plan) : ℕ :=
  p.fold (fun node counts => (if node.temp? = some name then 1 else 0) + total counts)

theorem reads_eq (name : String) (p : Plan) :
    p.reads name = (if p.temp? = some name then 1 else 0) + total (p.inputs.map (reads name)) := by
  rw [reads, fold_eq]
  rfl

theorem reads_eq_zero_iff {name : String} {p : Plan} : p.reads name = 0 ↔ name ∉ p.temps := by
  induction p using induction_inputs with
  | step p ih =>
      rw [reads_eq, Nat.add_eq_zero_iff, total_eq_zero_iff, List.forall_mem_map, mem_temps, not_or]
      apply and_congr
      · by_cases h : p.temp? = some name <;> simp [h]
      · push Not
        exact forall₂_congr ih

theorem foldStateAll_substituteRoot_count {name : String} {replacement : Plan} {ps : List Plan}
    (h : ∀ p ∈ ps, ∀ s, (p.foldState (substituteRoot name replacement) s).2.1 = s.1 + p.reads name)
    (s : ℕ × Cells) :
    (foldStateAll (substituteRoot name replacement) ps s).2.1 =
      s.1 + total (ps.map (reads name)) := by
  induction ps generalizing s with
  | nil => simp [foldStateAll]
  | cons p rest ih =>
      have hp := h p List.mem_cons_self s
      have hrest := ih (fun q hq => h q (List.mem_cons_of_mem p hq))
      simp only [foldStateAll, List.map_cons, total_cons]
      rw [hrest, hp]
      omega

theorem foldState_substituteRoot_count (name : String) (replacement p : Plan) (s : ℕ × Cells) :
    (p.foldState (substituteRoot name replacement) s).2.1 = s.1 + p.reads name := by
  induction p using induction_inputs generalizing s with
  | step p ih =>
      have hall := foldStateAll_substituteRoot_count ih s
      rw [foldState_eq, reads_eq]
      unfold substituteRoot
      split_ifs with h
      · rw [inputs_eq_nil_of_temp? h]
        simp [foldStateAll]
      · rw [Nat.zero_add]
        exact hall

/-- A substitution counts the reads of the name. -/
theorem substitute_count (p : Plan) (name : String) (replacement : Plan) (table : Cells) :
    (p.substitute name replacement table).2.1 = p.reads name := by
  rw [substitute_eq, foldState_substituteRoot_count, Nat.zero_add]

theorem foldStateAll_substituteRoot_of_not_mem {name : String} {replacement : Plan} {ps : List Plan}
    (h : ∀ p ∈ ps, ∀ s, p.foldState (substituteRoot name replacement) s = (p, s)) (s : ℕ × Cells) :
    foldStateAll (substituteRoot name replacement) ps s = (ps, s) := by
  induction ps with
  | nil => rfl
  | cons p rest ih =>
      have hrest := ih (fun q hq => h q (List.mem_cons_of_mem p hq))
      rw [foldStateAll, h p List.mem_cons_self]
      simp only [hrest]

theorem foldState_substituteRoot_of_not_mem {name : String} (replacement : Plan) {p : Plan}
    (h : name ∉ p.temps) (s : ℕ × Cells) :
    p.foldState (substituteRoot name replacement) s = (p, s) := by
  induction p using induction_inputs generalizing s with
  | step p ih =>
      rw [mem_temps, not_or, not_exists] at h
      have hinputs : ∀ q ∈ p.inputs, ∀ s,
          q.foldState (substituteRoot name replacement) s = (q, s) :=
        fun q hq => ih q hq (fun hname => h.2 q ⟨hq, hname⟩)
      rw [foldState_eq, foldStateAll_substituteRoot_of_not_mem hinputs, substituteRoot, if_neg h.1,
        withInputs_inputs]

/-- A substitution for a name that the plan does not read leaves the plan and makes no cell. -/
theorem substitute_of_not_mem {p : Plan} {name : String} (h : name ∉ p.temps) (replacement : Plan)
    (table : Cells) : p.substitute name replacement table = (p, 0, table) := by
  rw [substitute_eq, foldState_substituteRoot_of_not_mem replacement h]

end Plan

end Planner
