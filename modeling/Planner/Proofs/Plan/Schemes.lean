import Planner.Proofs.Plan.Reads

/-! # Reads and schemes

`Plan.scans` lists the reads of a plan with the schemes at them.  Giving reads their schemes treats
each of them on its own (`scans_bindTemps`): one that was written with a scheme keeps it, any other
one gets the scheme that is known for the relation (`Plan.BoundBy`).

The scheme of a plan depends on an input only through the scheme of the input (`scheme_withInputs`).
Where no state reads a cell (`Plan.detached`), it does not depend on the table of cells either
(`scheme_of_detached`), so a copy has the same scheme (`scheme_copy`).  Main statement:
`scheme_substitute`, substituting a plan for reads that have its scheme keeps the scheme. -/

namespace Planner

theorem exists_mem_of_forall₂ {α β : Type} {R : α → β → Prop} {as : List α} {bs : List β}
    (h : List.Forall₂ R as bs) {b : β} (hb : b ∈ bs) : ∃ a ∈ as, R a b := by
  induction h with
  | nil => cases hb
  | cons hab _ ih =>
      rcases List.mem_cons.mp hb with rfl | hb
      · exact ⟨_, List.mem_cons_self, hab⟩
      · obtain ⟨a, ha, hab⟩ := ih hb
        exact ⟨a, List.mem_cons_of_mem _ ha, hab⟩

theorem Cells.stateScheme_congr {cells table : Cells} {j k : CellId} (name : String)
    (h : cells.get j = table.get k) :
    cells.stateScheme name (some j) = table.stateScheme name (some k) := by
  simp only [stateScheme, Option.map_some, h]

namespace Plan

variable {p q r : Plan} {qs : List Plan} {name : String} {temps : Temps} {cells table : Cells}

/-! ### Reads with their schemes -/

/-- What the root reads, with the scheme at the read. -/
def scan? : Plan → Option (String × Scheme)
  | leaf _ (.scanTemp name scheme) => some (name, scheme)
  | _ => none

/-- The reads of a plan with the schemes at them, in preorder. -/
def scans (p : Plan) : List (String × Scheme) :=
  p.fold (fun node lists => node.scan?.toList ++ lists.flatten)

theorem scans_eq (p : Plan) : p.scans = p.scan?.toList ++ p.inputs.flatMap scans := by
  rw [scans, fold_eq]
  rfl

theorem map_fst_scan? (p : Plan) : p.scan?.map Prod.fst = p.temp? := by
  cases p with
  | leaf notes op => cases op <;> rfl
  | _ => rfl

theorem scan?_withInputs (p : Plan) (qs : List Plan) : (p.withInputs qs).scan? = p.scan? := by
  unfold withInputs
  split <;> rfl

theorem scan?_relinkRoot (moves : List (CellId × CellId)) (p : Plan) :
    (p.relinkRoot moves).scan? = p.scan? := by
  unfold relinkRoot
  split <;> rfl

theorem scans_withInputs (h : qs.length = p.inputs.length) :
    (p.withInputs qs).scans = p.scan?.toList ++ qs.flatMap scans := by
  rw [scans_eq, scan?_withInputs, inputs_withInputs h]

@[simp] theorem scans_unary (notes : Notes) (op : Unary) (input : Plan) :
    (unary notes op input).scans = input.scans := by
  rw [scans_eq]
  simp [scan?, inputs]

theorem scans_eq_preorder (p : Plan) : p.scans = p.preorder.filterMap scan? := by
  induction p using induction_inputs with
  | step p ih =>
      rw [scans_eq, filterMap_preorder_eq, List.flatMap_congr ih]

theorem mem_temps_iff_scans : name ∈ p.temps ↔ ∃ scheme, (name, scheme) ∈ p.scans := by
  simp only [temps, SortedSet.mem_ofList, scans_eq_preorder, List.mem_filterMap, ← map_fst_scan?]
  constructor
  · rintro ⟨q, hq, h⟩
    obtain ⟨⟨_, scheme⟩, hread, rfl⟩ := Option.map_eq_some_iff.mp h
    exact ⟨scheme, q, hq, hread⟩
  · rintro ⟨scheme, q, hq, hread⟩
    exact ⟨q, hq, Option.map_eq_some_iff.mpr ⟨_, hread, rfl⟩⟩

theorem scans_relink (moves : List (CellId × CellId)) (p : Plan) :
    (p.relink moves).scans = p.scans := by
  induction p using induction_inputs with
  | step p ih =>
      have hscan : (p.relink moves).scan? = p.scan? := by
        rw [relink_eq, scan?_withInputs, scan?_relinkRoot]
      rw [scans_eq, hscan, inputs_relink, scans_eq p, List.flatMap_map, List.flatMap_congr ih]

theorem scans_withNotes (notes : Notes) (p : Plan) : (p.withNotes notes).scans = p.scans := by
  cases p with
  | leaf _ op => cases op <;> rfl
  | _ => rfl

theorem scans_copy (p : Plan) (table : Cells) : (p.copy table).1.scans = p.scans := by
  unfold copy
  rw [scans_withNotes, scans_relink]

/-- A substitution leaves the reads of other names and brings in those of the replacement. -/
theorem mem_scans_substitute {read : String × Scheme}
    (h : read ∈ (p.substitute name r table).1.scans) :
    (read ∈ p.scans ∧ read.1 ≠ name) ∨ read ∈ r.scans := by
  revert h
  refine substitute_relates (R := fun p q => read ∈ q.scans →
    (read ∈ p.scans ∧ read.1 ≠ name) ∨ read ∈ r.scans) ?_ ?_ p table
  · intro p table _ h
    rw [scans_copy] at h
    exact Or.inr h
  · intro p qs hkeep hqs h
    rw [scans_withInputs hqs.length_eq.symm, List.mem_append, Option.mem_toList,
      List.mem_flatMap] at h
    rw [scans_eq p, List.mem_append, Option.mem_toList, List.mem_flatMap]
    rcases h with h | ⟨q, hq, h⟩
    · refine Or.inl ⟨Or.inl h, fun e => hkeep ?_⟩
      rw [← map_fst_scan?, h, Option.map_some, e]
    · obtain ⟨q', hq', hrelated⟩ := exists_mem_of_forall₂ hqs hq
      rcases hrelated h with ⟨h, hne⟩ | h
      · exact Or.inl ⟨Or.inr ⟨q', hq', h⟩, hne⟩
      · exact Or.inr h

/-! ### Giving reads their schemes -/

/-- A read after reads got their schemes, and as it was written: a written scheme stays, and where
none was written there is the one that is known for the relation. -/
structure BoundBy (temps : Temps) (written bound : String × Scheme) : Prop where
  name_eq : bound.1 = written.1
  kept : written.2.isEmpty = false → bound.2 = written.2
  found : written.2.isEmpty = true → temps.lookup written.1 = some bound.2

/-- The step of `bindTemps` at one node. -/
def bindRoot (temps : Temps) (node : Plan) (inputs : List Plan) (failed : Option PlanError) :
    Plan × Option PlanError :=
  bindTemp temps (node.withInputs inputs) failed

theorem bindTemps_eq (temps : Temps) (p : Plan) :
    p.bindTemps temps = p.foldState (bindRoot temps) none := rfl

theorem bindTemp_congr {temps temps' : Temps} {p : Plan}
    (h : ∀ x, p.temp? = some x → temps.lookup x = temps'.lookup x) (failed : Option PlanError) :
    bindTemp temps p failed = bindTemp temps' p failed := by
  unfold bindTemp
  split
  · rename_i notes name scheme
    rw [h name rfl]
  · rfl

/-- Only the schemes of what the plan reads play a part. -/
theorem bindTemps_congr {temps temps' : Temps} {p : Plan}
    (h : ∀ x ∈ p.temps, temps.lookup x = temps'.lookup x) : p.bindTemps temps = p.bindTemps temps' := by
  rw [bindTemps_eq, bindTemps_eq]
  suffices ∀ s, p.foldState (bindRoot temps) s = p.foldState (bindRoot temps') s from this none
  induction p using induction_inputs with
  | step p ih =>
      intro s
      have hinputs := foldStateAll_congr (s := s) fun q hq =>
        ih q hq fun x hx => h x (mem_temps.mpr (Or.inr ⟨q, hq, hx⟩))
      rw [foldState_eq, foldState_eq, hinputs]
      refine bindTemp_congr (fun x hx => h x (mem_temps.mpr (Or.inl ?_))) _
      rwa [temp?_withInputs] at hx

theorem bindTemp_failed {failed : Option PlanError} (h : bindTemp temps p failed = (q, none)) :
    failed = none := by
  cases failed with
  | none => rfl
  | some e =>
      unfold bindTemp at h
      cases h

/-- Giving the root its scheme changes nothing, or it is a read, which stays a read. -/
theorem bindTemp_cases (h : bindTemp temps p none = (q, none)) :
    (p.scan? = none ∧ q = p) ∨
      ∃ notes name written bound, p = leaf notes (.scanTemp name written) ∧
        q = leaf notes (.scanTemp name bound) ∧ BoundBy temps (name, written) (name, bound) := by
  unfold bindTemp at h
  split at h
  · rename_i notes name written _
    split_ifs at h with hempty
    · split at h
      · rename_i bound hfound
        obtain ⟨rfl, -⟩ := Prod.mk.inj h
        exact Or.inr ⟨notes, name, written, bound, rfl, rfl, rfl, by simp [hempty], fun _ => hfound⟩
      · cases h
    · obtain ⟨rfl, -⟩ := Prod.mk.inj h
      exact Or.inr ⟨notes, name, written, written, rfl, rfl, rfl, fun _ => rfl, by simp [hempty]⟩
  · rename_i hnot
    obtain ⟨rfl, -⟩ := Prod.mk.inj h
    refine Or.inl ⟨?_, rfl⟩
    unfold scan?
    split
    · exact absurd rfl (hnot _ _ _ rfl)
    · rfl

theorem foldStateAll_bindRoot {R : Plan → Plan → Prop} {ps : List Plan}
    (h : ∀ p ∈ ps, ∀ failed q, p.foldState (bindRoot temps) failed = (q, none) →
      failed = none ∧ R p q)
    {failed : Option PlanError} (hps : foldStateAll (bindRoot temps) ps failed = (qs, none)) :
    failed = none ∧ List.Forall₂ R ps qs := by
  induction ps generalizing failed qs with
  | nil =>
      obtain ⟨rfl, rfl⟩ := Prod.mk.inj hps
      exact ⟨rfl, List.Forall₂.nil⟩
  | cons p rest ih =>
      simp only [foldStateAll] at hps
      obtain ⟨rfl, hrest⟩ := Prod.mk.inj hps
      obtain ⟨hp, hqs⟩ := ih (fun q hq => h q (List.mem_cons_of_mem p hq)) (Prod.ext rfl hrest)
      obtain ⟨rfl, hq⟩ := h p List.mem_cons_self failed _ (Prod.ext rfl hp)
      exact ⟨rfl, List.Forall₂.cons hq hqs⟩

/-- A relation between plans and what giving reads their schemes makes of them, node by node. -/
theorem bindTemps_relates {R : Plan → Plan → Prop}
    (hroot : ∀ p qs q, List.Forall₂ R p.inputs qs →
      bindTemp temps (p.withInputs qs) none = (q, none) → R p q)
    (h : p.bindTemps temps = (q, none)) : R p q := by
  rw [bindTemps_eq] at h
  -- The state is `none` behind the walk, so it was at every node.
  suffices ∀ failed q, p.foldState (bindRoot temps) failed = (q, none) → failed = none ∧ R p q from
    (this none q h).2
  clear h
  induction p using induction_inputs with
  | step p ih =>
      intro failed q h
      rw [foldState_eq] at h
      have hfailed := bindTemp_failed h
      obtain ⟨rfl, hinputs⟩ := foldStateAll_bindRoot ih (Prod.ext rfl hfailed)
      refine ⟨rfl, hroot p _ q hinputs ?_⟩
      rw [← h, hfailed]
      rfl

/-- **Every read gets its scheme on its own.** -/
theorem scans_bindTemps (h : p.bindTemps temps = (q, none)) :
    List.Forall₂ (BoundBy temps) p.scans q.scans := by
  refine bindTemps_relates (R := fun p q => List.Forall₂ (BoundBy temps) p.scans q.scans) ?_ h
  intro p qs q hqs h
  have hlen := hqs.length_eq.symm
  rcases bindTemp_cases h with ⟨hscan, rfl⟩ | ⟨notes, name, written, bound, hp, rfl, hbound⟩
  · rw [scan?_withInputs] at hscan
    rw [scans_withInputs hlen, scans_eq p, hscan]
    exact List.rel_flatMap hqs (fun _ _ h => h)
  · have hscan : p.scan? = some (name, written) := by rw [← scan?_withInputs p qs, hp]; rfl
    have hnil : p.inputs = [] := by
      have := inputs_withInputs hlen
      rw [hp] at this
      obtain rfl : [] = qs := this
      exact List.forall₂_nil_right_iff.mp hqs
    rw [scans_eq p, hscan, hnil]
    exact List.Forall₂.cons hbound List.Forall₂.nil

/-! ### The cells that states read -/

/-- The cells that the states of a plan read, in preorder. -/
def stateCells (p : Plan) : List CellId := p.preorder.filterMap stateCell?

theorem mem_stateCells {k : CellId} :
    k ∈ p.stateCells ↔ p.stateCell? = some k ∨ ∃ q ∈ p.inputs, k ∈ q.stateCells :=
  mem_filterMap_preorder

/-- No state of the plan reads a cell. -/
def detached (p : Plan) : Bool :=
  p.fold (fun node flags => node.stateCell?.isNone && flags.all id)

theorem detached_iff : p.detached = true ↔ p.stateCell? = none ∧ ∀ q ∈ p.inputs, q.detached = true := by
  rw [detached, fold_eq, Bool.and_eq_true, Option.isNone_iff_eq_none]
  simp [detached]

theorem stateCell?_withInputs (p : Plan) (qs : List Plan) :
    (p.withInputs qs).stateCell? = p.stateCell? := by
  unfold withInputs
  split <;> rfl

theorem not_mem_stateCells_of_detached (hp : p.detached = true) (k : CellId) : k ∉ p.stateCells := by
  induction p using induction_inputs with
  | step p ih =>
      obtain ⟨hroot, hinputs⟩ := detached_iff.mp hp
      rw [mem_stateCells, hroot]
      rintro (h | ⟨q, hq, h⟩)
      · cases h
      · exact ih q hq (hinputs q hq) h

theorem detached_withInputs (hp : p.detached = true)
    (h : List.Forall₂ (fun p q => p.detached = true → q.detached = true) p.inputs qs) :
    (p.withInputs qs).detached = true := by
  obtain ⟨hroot, hinputs⟩ := detached_iff.mp hp
  rw [detached_iff, stateCell?_withInputs, inputs_withInputs h.length_eq.symm]
  refine ⟨hroot, fun q hq => ?_⟩
  obtain ⟨p', hp', hkeep⟩ := exists_mem_of_forall₂ h hq
  exact hkeep (hinputs p' hp')

@[simp] theorem detached_unary (notes : Notes) (op : Unary) (input : Plan) :
    (unary notes op input).detached = input.detached := by
  rw [Bool.eq_iff_iff, detached_iff]
  simp [stateCell?, inputs]

theorem detached_bindTemps (h : p.bindTemps temps = (q, none)) (hp : p.detached = true) :
    q.detached = true := by
  revert hp
  refine bindTemps_relates (R := fun p q => p.detached = true → q.detached = true) ?_ h
  intro p qs q hqs h hp
  rcases bindTemp_cases h with ⟨-, rfl⟩ | ⟨notes, name, written, bound, -, rfl, -⟩
  · exact detached_withInputs hp hqs
  · rfl

/-! ### Schemes -/

theorem schemes_eq_map (cells : Cells) (ps : List Plan) :
    schemes cells ps = ps.map (scheme cells) := by
  induction ps with
  | nil => rfl
  | cons p rest ih => rw [schemes, ih, List.map_cons]

/-- The scheme of a plan with other inputs, with another table that agrees on what the root reads. -/
theorem scheme_withInputs (hroot : ∀ k, p.stateCell? = some k → cells.get k = table.get k)
    (h : List.Forall₂ (fun p q => p.scheme cells = q.scheme table) p.inputs qs) :
    p.scheme cells = (p.withInputs qs).scheme table := by
  cases p with
  | leaf notes op =>
      cases op with
      | state name cell =>
          cases cell with
          | none => rfl
          | some k => exact Cells.stateScheme_congr name (hroot k rfl)
      | _ => rfl
  | unary notes op input =>
      obtain ⟨q, _, hq, hnil, rfl⟩ := List.forall₂_cons_left_iff.mp h
      obtain rfl := List.forall₂_nil_left_iff.mp hnil
      rw [withInputs, scheme, scheme, hq]
  | binary notes op left right =>
      obtain ⟨q, _, hq, hrest, rfl⟩ := List.forall₂_cons_left_iff.mp h
      obtain ⟨r, _, hr, hnil, rfl⟩ := List.forall₂_cons_left_iff.mp hrest
      obtain rfl := List.forall₂_nil_left_iff.mp hnil
      rw [withInputs, scheme, scheme, hq, hr]
  | nary notes op inputs =>
      have hschemes : inputs.map (scheme cells) = qs.map (scheme table) := by
        rw [← List.forall₂_eq_eq_eq, List.forall₂_map_left_iff, List.forall₂_map_right_iff]
        exact h
      rw [withInputs, scheme, scheme, schemes_eq_map, schemes_eq_map, hschemes]

/-- The scheme depends on the table only through the cells that states read. -/
theorem scheme_congr (h : ∀ k ∈ p.stateCells, cells.get k = table.get k) :
    p.scheme cells = p.scheme table := by
  induction p using induction_inputs with
  | step p ih =>
      have hinputs : ∀ q ∈ p.inputs, q.scheme cells = q.scheme table := fun q hq =>
        ih q hq (fun k hk => h k (mem_stateCells.mpr (Or.inr ⟨q, hq, hk⟩)))
      have hp := scheme_withInputs (fun k hk => h k (mem_stateCells.mpr (Or.inl hk)))
        (List.forall₂_same.mpr hinputs)
      rwa [withInputs_inputs] at hp

/-- Without states that read cells, the scheme does not depend on the table of cells. -/
theorem scheme_of_detached (hp : p.detached = true) (cells table : Cells) :
    p.scheme cells = p.scheme table :=
  scheme_congr (fun k hk => absurd hk (not_mem_stateCells_of_detached hp k))

/-! ### Copies and substitutions -/

theorem stateCell?_relinkRoot (moves : List (CellId × CellId)) (p : Plan) :
    (p.relinkRoot moves).stateCell? = p.stateCell?.map (renamed moves) := by
  unfold relinkRoot
  split
  · rfl
  · rfl
  · rfl
  · rename_i hstate _
    cases p with
    | leaf notes op =>
        cases op with
        | state name cell =>
            cases cell with
            | none => rfl
            | some k => exact absurd rfl (hstate notes name k)
        | _ => rfl
    | _ => rfl

theorem stateCell?_relink (moves : List (CellId × CellId)) (p : Plan) :
    (p.relink moves).stateCell? = p.stateCell?.map (renamed moves) := by
  rw [relink_eq, stateCell?_withInputs, stateCell?_relinkRoot]

theorem scheme_relinkRoot (moves : List (CellId × CellId)) (h : p.stateCell? = none) (cells : Cells) :
    (p.relinkRoot moves).scheme cells = p.scheme cells := by
  unfold relinkRoot
  split
  · rfl
  · cases h
  · rfl
  · rfl

theorem detached_relink (moves : List (CellId × CellId)) (hp : p.detached = true) :
    (p.relink moves).detached = true := by
  induction p using induction_inputs with
  | step p ih =>
      obtain ⟨hroot, hinputs⟩ := detached_iff.mp hp
      rw [detached_iff, inputs_relink, List.forall_mem_map, stateCell?_relink, hroot]
      exact ⟨rfl, fun q hq => ih q hq (hinputs q hq)⟩

theorem scheme_relink_of_inputs {moves : List (CellId × CellId)}
    (hroot : ∀ k, p.stateCell? = some k → table.get (renamed moves k) = cells.get k)
    (h : ∀ q ∈ p.inputs, (q.relink moves).scheme table = q.scheme cells) :
    (p.relink moves).scheme table = p.scheme cells := by
  -- A state has no inputs, and the root of any other plan has the scheme it had.
  cases hcell : p.stateCell? with
  | some k =>
      unfold stateCell? at hcell
      split at hcell
      · rename_i notes name cell
        subst hcell
        exact Cells.stateScheme_congr name (hroot k rfl)
      · cases hcell
  | none =>
      rw [relink_eq, ← scheme_relinkRoot moves hcell]
      symm
      apply scheme_withInputs
      · rw [stateCell?_relinkRoot, hcell]
        intro k hk
        cases hk
      · rw [inputs_relinkRoot, List.forall₂_map_right_iff, List.forall₂_same]
        exact fun q hq => (h q hq).symm

/-- Renaming cells keeps the scheme if the new cells hold what the old ones held. -/
theorem scheme_relink {moves : List (CellId × CellId)}
    (h : ∀ k ∈ p.stateCells, table.get (renamed moves k) = cells.get k) :
    (p.relink moves).scheme table = p.scheme cells := by
  induction p using induction_inputs with
  | step p ih =>
      apply scheme_relink_of_inputs
      · exact fun k hk => h k (mem_stateCells.mpr (Or.inl hk))
      · exact fun q hq => ih q hq (fun k hk => h k (mem_stateCells.mpr (Or.inr ⟨q, hq, hk⟩)))

theorem detached_withNotes (notes : Notes) (p : Plan) :
    (p.withNotes notes).detached = p.detached := by
  cases p with
  | leaf _ op => cases op <;> rfl
  | _ => rfl

theorem scheme_withNotes (notes : Notes) (cells : Cells) (p : Plan) :
    (p.withNotes notes).scheme cells = p.scheme cells := by
  cases p <;> rfl

theorem detached_copy (hp : p.detached = true) (table : Cells) : (p.copy table).1.detached = true := by
  unfold copy
  rw [detached_withNotes]
  exact detached_relink _ hp

theorem scheme_copy (hp : p.detached = true) (table cells : Cells) :
    (p.copy table).1.scheme cells = p.scheme cells := by
  unfold copy
  rw [scheme_withNotes]
  exact scheme_relink (fun k hk => absurd hk (not_mem_stateCells_of_detached hp k))

theorem detached_substitute (hp : p.detached = true) (hr : r.detached = true) (name : String)
    (table : Cells) : (p.substitute name r table).1.detached = true := by
  revert hp
  refine substitute_relates (R := fun p q => p.detached = true → q.detached = true) ?_ ?_ p table
  · intro p table _ _
    exact detached_copy hr table
  · intro p qs _ hqs hp
    exact detached_withInputs hp hqs

theorem scan?_of_temp? (h : p.temp? = some name) :
    ∃ scheme, p.scan? = some (name, scheme) ∧ ∀ cells, p.scheme cells = .ok scheme := by
  unfold temp? at h
  split at h
  · obtain rfl := Option.some.inj h
    exact ⟨_, rfl, fun _ => rfl⟩
  · cases h

/-- **Substituting a plan for reads that have its scheme keeps the scheme.** -/
theorem scheme_substitute (hp : p.detached = true) (hr : r.detached = true)
    (hreads : ∀ scheme, (name, scheme) ∈ p.scans → r.scheme cells = .ok scheme) (table : Cells) :
    (p.substitute name r table).1.scheme cells = p.scheme cells := by
  revert hp hreads
  refine substitute_relates (R := fun p q => p.detached = true →
    (∀ scheme, (name, scheme) ∈ p.scans → r.scheme cells = .ok scheme) →
    q.scheme cells = p.scheme cells) ?_ ?_ p table
  · intro p table htemp _ hreads
    obtain ⟨scheme, hscan, hscheme⟩ := scan?_of_temp? htemp
    have hmem : (name, scheme) ∈ p.scans := by
      rw [scans_eq, hscan]
      exact List.mem_cons_self
    rw [scheme_copy hr, hscheme, hreads scheme hmem]
  · intro p qs _ hqs hp hreads
    obtain ⟨hroot, hinputs⟩ := detached_iff.mp hp
    have hmem : ∀ q ∈ p.inputs, q.detached = true ∧
        ∀ scheme, (name, scheme) ∈ q.scans → r.scheme cells = .ok scheme := by
      refine fun q hq => ⟨hinputs q hq, fun scheme h => hreads scheme ?_⟩
      rw [scans_eq]
      exact List.mem_append_right _ (List.mem_flatMap.mpr ⟨q, hq, h⟩)
    refine (scheme_withInputs (by simp [hroot]) ?_).symm
    refine ((List.forall₂_and_left _ _).mpr ⟨hmem, hqs⟩).imp ?_
    rintro q q' ⟨⟨hdetached, hreads⟩, hkeep⟩
    exact (hkeep hdetached hreads).symm

end Plan

end Planner
