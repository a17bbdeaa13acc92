import Planner.Plan.Rule
import Planner.Proofs.Plan.Copies

/-! # The firings of a rule

`Applies` and `AppliesInputs` are the derivations of what applying a rule gives, with the list of all
uses of the rule on the way (`Firing`); there is one whenever there is a result
(`exists_applies_iff`).  What holds of the plan and the workspace behind a rule is read off its
firings: `Firing.Sound` is what each of them finds (`sound_of_applies`).  If each of them keeps the
scheme of its node and what states around the node read (`Firing.Quiet`), the scheme of the plan is kept
(`scheme_of_applies`).  If none of them would do anything else were more cells held, then neither would
the rule (`outlived_of_applies`). -/

namespace Planner

open Plan

/-! ### Nodes with other inputs -/

namespace Plan

variable {p q r : Plan} {qs rs done rest : List Plan} {table after : Cells} {k : CellId}

theorem withInputs_withInputs (hq : qs.length = p.inputs.length) (hr : rs.length = p.inputs.length) :
    (p.withInputs qs).withInputs rs = p.withInputs rs := by
  cases p with
  | unary notes op input =>
      obtain ⟨q, rfl⟩ := List.length_eq_one_iff.mp hq
      obtain ⟨r, rfl⟩ := List.length_eq_one_iff.mp hr
      rfl
  | binary notes op left right =>
      obtain ⟨q, q', rfl⟩ := List.length_eq_two.mp hq
      obtain ⟨r, r', rfl⟩ := List.length_eq_two.mp hr
      rfl
  | _ => rfl

theorem length_gap (h : (done ++ p :: rest).length = q.inputs.length) (r : Plan) :
    (done ++ r :: rest).length = q.inputs.length := by
  rw [← h, List.length_append, List.length_append, List.length_cons, List.length_cons]

theorem mem_cells_withInputs (h : qs.length = p.inputs.length) :
    k ∈ (p.withInputs qs).cells ↔ p.cell? = some k ∨ ∃ q ∈ qs, k ∈ q.cells := by
  rw [mem_cells, cell?_withInputs, inputs_withInputs h]

/-- A node holds the cells that it holds without an input, and those of the input. -/
theorem mem_cells_filled (h : (done ++ p :: rest).length = q.inputs.length) :
    k ∈ (q.withInputs (done ++ p :: rest)).cells ↔ k ∈ (q.gap done rest).cells ∨ k ∈ p.cells := by
  have hsingleton : k ∉ (leaf {} .singleton).cells := by
    rw [mem_cells]
    simp [cell?, inputs]
  rw [gap, mem_cells_withInputs h, mem_cells_withInputs (length_gap h _)]
  simp only [List.mem_append, List.mem_cons, or_and_right, exists_or, exists_eq_left, hsingleton,
    false_or, or_comm, or_left_comm]

theorem mem_held_filled {others : List CellId} {around : List Plan}
    (h : (done ++ p :: rest).length = q.inputs.length) :
    k ∈ others ++ (q.gap done rest :: around).flatMap cells ++ p.cells ↔
      k ∈ others ++ around.flatMap cells ++ (q.withInputs (done ++ p :: rest)).cells := by
  simp only [List.flatMap_cons, List.mem_append, mem_cells_filled h, or_assoc, or_left_comm]

/-- What the states beside an input read plays a part in the scheme of a node, and the scheme of the
input. -/
theorem scheme_filled (h : (done ++ p :: rest).length = q.inputs.length)
    (hread : ∀ k ∈ (q.gap done rest).stateCells, after.get k = table.get k)
    (hr : r.scheme after = p.scheme table) :
    (q.withInputs (done ++ r :: rest)).scheme after =
      (q.withInputs (done ++ p :: rest)).scheme table := by
  have hgap : ∀ k, k ∈ (q.gap done rest).stateCells ↔ q.stateCell? = some k ∨
      ∃ d ∈ done ++ leaf {} .singleton :: rest, k ∈ d.stateCells := by
    intro k
    rw [gap, mem_stateCells, stateCell?_withInputs, inputs_withInputs (length_gap h _)]
  have hbeside : ∀ d ∈ done ++ rest, d.scheme table = d.scheme after := by
    intro d hd
    have hmem : d ∈ done ++ leaf {} .singleton :: rest := by
      simp only [List.mem_append, List.mem_cons] at hd ⊢
      exact hd.imp_right Or.inr
    exact scheme_congr fun k hk => (hread k ((hgap k).mpr (Or.inr ⟨d, hmem, hk⟩))).symm
  rw [← withInputs_withInputs h (length_gap h r)]
  refine (scheme_withInputs (fun k hk => ?_) ?_).symm
  · rw [stateCell?_withInputs] at hk
    exact (hread k ((hgap k).mpr (Or.inl hk))).symm
  · rw [inputs_withInputs h]
    refine List.rel_append ?_ (List.Forall₂.cons hr.symm ?_)
    · exact List.forall₂_same.mpr fun d hd => hbeside d (List.mem_append_left _ hd)
    · exact List.forall₂_same.mpr fun d hd => hbeside d (List.mem_append_right _ hd)

/-- A class of plans that has the inputs of its plans, and its plans with other inputs of the class. -/
structure Hereditary (D : Plan → Prop) : Prop where
  singleton : D (leaf {} .singleton)
  input : ∀ {p q}, D p → q ∈ p.inputs → D q
  withInputs : ∀ {p qs}, D p → qs.length = p.inputs.length → (∀ q ∈ qs, D q) → D (p.withInputs qs)

theorem hereditary_true : Hereditary (fun _ => True) :=
  ⟨trivial, fun _ _ => trivial, fun _ _ _ => trivial⟩

theorem Hereditary.filled {D : Plan → Prop} (hD : Hereditary D)
    (h : (done ++ p :: rest).length = q.inputs.length) (hq : D (q.withInputs (done ++ p :: rest)))
    (hr : D r) : D (q.withInputs (done ++ r :: rest)) := by
  rw [← withInputs_withInputs h (length_gap h r)]
  refine hD.withInputs hq (by rw [inputs_withInputs h, length_gap h r, h]) fun d hd => ?_
  rcases List.mem_append.mp hd with hd | hd
  · exact hD.input hq (by rw [inputs_withInputs h]; exact List.mem_append_left _ hd)
  · rcases List.mem_cons.mp hd with rfl | hd
    · exact hr
    · refine hD.input hq ?_
      rw [inputs_withInputs h]
      exact List.mem_append_right _ (List.mem_cons_of_mem _ hd)

end Plan

/-! ### Workspaces -/

variable {σ : Type}

namespace Workspace

variable {w u : Workspace σ} {held kept : List CellId} {k : CellId}

/-- Every cell is gone that is not in the list and that no plan put aside holds. -/
def Tidy (w : Workspace σ) (held : List CellId) : Prop :=
  ∀ k ∉ held ++ w.stored.flatMap Plan.cells, w.cells.get k = .gone

theorem Tidy.mono (h : w.Tidy held) (hsub : ∀ k ∈ held, k ∈ kept) : w.Tidy kept := by
  intro k hk
  refine h k fun hmem => hk ?_
  rw [List.mem_append] at hmem ⊢
  exact hmem.imp_left (hsub k)

theorem tidy_release (w : Workspace σ) (held : List CellId) : (w.release held).Tidy held :=
  fun _ hk => Cells.get_retain_of_not_mem hk

theorem get_release_of_mem (h : k ∈ held ++ w.stored.flatMap Plan.cells) :
    (w.release held).cells.get k = w.cells.get k :=
  Cells.get_retain_of_mem h

/-- In a tidy workspace there is nothing to let go of. -/
theorem Tidy.get_release (h : w.Tidy held) (k : CellId) :
    (w.release held).cells.get k = w.cells.get k := by
  by_cases hk : k ∈ held ++ w.stored.flatMap Plan.cells
  · exact get_release_of_mem hk
  · rw [h k hk, tidy_release w held k hk]

/-- The second workspace is like the first one, but cells that are gone in the first one need not be
gone in it. -/
structure Outlived (w u : Workspace σ) : Prop where
  memory_eq : u.memory = w.memory
  stored_eq : u.stored = w.stored
  next_eq : u.cells.next = w.cells.next
  get_eq : ∀ k, w.cells.get k ≠ .gone → u.cells.get k = w.cells.get k

theorem Outlived.refl (w : Workspace σ) : w.Outlived w := ⟨rfl, rfl, rfl, fun _ _ => rfl⟩

theorem Outlived.release_left (h : w.Outlived u) (held : List CellId) :
    (w.release held).Outlived u where
  memory_eq := h.memory_eq
  stored_eq := h.stored_eq
  next_eq := h.next_eq.trans (Cells.next_retain _).symm
  get_eq k hk := by
    have hmem : k ∈ held ++ w.stored.flatMap Plan.cells := by
      by_contra hnot
      exact hk (tidy_release w held k hnot)
    rw [get_release_of_mem hmem] at hk ⊢
    exact h.get_eq k hk

/-- What is gone in a tidy workspace may be let go of. -/
theorem Outlived.release_right (h : w.Outlived u) (hw : w.Tidy held) :
    w.Outlived (u.release held) where
  memory_eq := h.memory_eq
  stored_eq := h.stored_eq
  next_eq := (Cells.next_retain _).trans h.next_eq
  get_eq k hk := by
    have hmem : k ∈ held ++ u.stored.flatMap Plan.cells := by
      by_contra hnot
      rw [h.stored_eq] at hnot
      exact hk (hw k hnot)
    rw [get_release_of_mem hmem, h.get_eq k hk]

theorem Outlived.release (h : w.Outlived u) (hsub : ∀ k ∈ held, k ∈ kept) :
    (w.release held).Outlived (u.release kept) :=
  (h.release_left held).release_right ((tidy_release w held).mono hsub)

end Workspace

open Workspace

/-! ### Firings -/

/-- One use of a rule: the cells that are held outside the plan, what stands around the node, the node,
and the workspace before. -/
structure Firing (σ : Type) where
  rule : Rule σ
  others : List CellId
  around : List Plan
  node : Plan
  before : Workspace σ

namespace Firing

/-- The cells that are held outside the node. -/
def held (f : Firing σ) : List CellId := f.others ++ f.around.flatMap cells

/-- What the rule gives. -/
def fired (f : Firing σ) : Plan × Workspace σ := f.rule.fire f.held f.node f.before

/-- The node that is put in, and the workspace then. -/
def after (f : Firing σ) : Plan × Workspace σ := f.rule.put f.held f.node f.before

/-- What a firing finds: a workspace where a cell is gone if nothing holds it, and plans of a class. -/
structure Sound (D : Plan → Prop) (f : Firing σ) : Prop where
  tidy : f.before.Tidy (f.held ++ f.node.cells)
  node : D f.node
  around : ∀ p ∈ f.around, D p

/-- The scheme of the node is kept, or its failure. -/
def KeepsScheme (f : Firing σ) : Prop :=
  f.after.1.scheme f.after.2.cells = f.node.scheme f.before.cells

/-- The states around the node read what they read before. -/
def Quiet (f : Firing σ) : Prop :=
  ∀ p ∈ f.around, ∀ k ∈ p.stateCells, f.after.2.cells.get k = f.before.cells.get k

/-- The rule would do the same were more cells held, and some that are gone still there. -/
def Indifferent (f : Firing σ) : Prop :=
  ∀ held w, (∀ k ∈ f.held, k ∈ held) → f.before.Outlived w →
    (f.rule.fire held f.node w).1 = f.fired.1 ∧ f.fired.2.Outlived (f.rule.fire held f.node w).2

end Firing

/-! ### Derivations -/

section Derivations

variable (rule : Rule σ) (others : List CellId)

mutual

/-- Applying a rule gives a plan and a workspace.  The list has the firings in order. -/
inductive Applies : List Plan → Plan → Workspace σ → List (Firing σ) → Plan → Workspace σ → Prop
  | node {around : List Plan} {p q r : Plan} {w u v : Workspace σ} {fs : List (Firing σ)} :
      rule.put (others ++ around.flatMap cells) p w = (r, u) →
      AppliesInputs around r [] r.inputs u fs q v →
        Applies around p w (⟨rule, others, around, p, w⟩ :: fs) q v

/-- Applying a rule to the inputs that are left gives a plan and a workspace. -/
inductive AppliesInputs : List Plan → Plan → List Plan → List Plan → Workspace σ →
    List (Firing σ) → Plan → Workspace σ → Prop
  | nil {around done : List Plan} {q : Plan} {w : Workspace σ} :
      AppliesInputs around q done [] w [] (q.withInputs done) w
  | cons {around done rest : List Plan} {p q q' r : Plan} {w u v : Workspace σ}
      {fs gs : List (Firing σ)} :
      Applies (q.gap done rest :: around) p w fs r u →
      AppliesInputs around q (done ++ [r]) rest u gs q' v →
        AppliesInputs around q done (p :: rest) w (fs ++ gs) q' v

end

end Derivations

variable {rule : Rule σ} {others : List CellId} {D : Plan → Prop}

theorem exists_applies {around : List Plan} {p : Plan} {w : Workspace σ} {r : Plan × Workspace σ}
    (h : rule.apply others around p w = some r) :
    ∃ fs, Applies rule others around p w fs r.1 r.2 := by
  refine (Rule.apply.mutual_partial_correctness rule others
    (fun around p w r => ∃ fs, Applies rule others around p w fs r.1 r.2)
    (fun around q done todo w r => ∃ fs, AppliesInputs rule others around q done todo w fs r.1 r.2)
    ?_ ?_).1 around p w r h
  · intro applyInputs ih around p w r h
    obtain ⟨fs, hfs⟩ := ih _ _ _ _ _ _ h
    exact ⟨_, .node rfl hfs⟩
  · intro apply applyInputs ih ihs around q done todo w r h
    cases todo with
    | nil =>
        obtain rfl := Option.some.inj h
        exact ⟨[], .nil⟩
    | cons p rest =>
        obtain ⟨s, hs, h⟩ := Option.bind_eq_some_iff.mp h
        obtain ⟨fs, hfs⟩ := ih _ _ _ _ hs
        obtain ⟨gs, hgs⟩ := ihs _ _ _ _ _ _ h
        exact ⟨_, .cons hfs hgs⟩

mutual

theorem apply_of_applies {around : List Plan} {p q : Plan} {w v : Workspace σ}
    {fs : List (Firing σ)} (h : Applies rule others around p w fs q v) :
    rule.apply others around p w = some (q, v) := by
  match h with
  | .node hput h =>
      rw [Rule.apply, hput]
      exact applyInputs_of_appliesInputs h

theorem applyInputs_of_appliesInputs {around done todo : List Plan} {q q' : Plan}
    {w v : Workspace σ} {fs : List (Firing σ)}
    (h : AppliesInputs rule others around q done todo w fs q' v) :
    rule.applyInputs others around q done todo w = some (q', v) := by
  match h with
  | .nil => rw [Rule.applyInputs]
  | .cons hp hrest =>
      rw [Rule.applyInputs, apply_of_applies hp]
      exact applyInputs_of_appliesInputs hrest

end

/-- There is a derivation of every result, and of nothing else. -/
theorem exists_applies_iff {around : List Plan} {p q : Plan} {w v : Workspace σ} :
    (∃ fs, Applies rule others around p w fs q v) ↔ rule.apply others around p w = some (q, v) :=
  ⟨fun ⟨_, h⟩ => apply_of_applies h, fun h => exists_applies h⟩

/-! ### What firings find -/

theorem tidy_put (rule : Rule σ) (held : List CellId) (p : Plan) (w : Workspace σ) :
    (rule.put held p w).2.Tidy (held ++ (rule.put held p w).1.cells) :=
  tidy_release _ _

/-- What is found while a rule is at the inputs of a node: some are done and some are left. -/
structure SoundInputs (D : Plan → Prop) (others : List CellId) (around : List Plan) (q : Plan)
    (done todo : List Plan) (w : Workspace σ) : Prop where
  length_eq : (done ++ todo).length = q.inputs.length
  tidy : w.Tidy (others ++ around.flatMap cells ++ (q.withInputs (done ++ todo)).cells)
  plan : D (q.withInputs (done ++ todo))
  around : ∀ p ∈ around, D p

namespace SoundInputs

variable {around done rest : List Plan} {p q r : Plan} {w u : Workspace σ}

theorem start (hput : rule.put (others ++ around.flatMap cells) p w = (q, u)) (hq : D q)
    (haround : ∀ p ∈ around, D p) : SoundInputs D others around q [] q.inputs u where
  length_eq := rfl
  tidy := by
    have := tidy_put rule (others ++ around.flatMap cells) p w
    rwa [hput, ← withInputs_inputs q] at this
  plan := by rwa [List.nil_append, withInputs_inputs]
  around := haround

theorem head (hD : Hereditary D) (h : SoundInputs D others around q done (p :: rest) w) :
    Firing.Sound D ⟨rule, others, q.gap done rest :: around, p, w⟩ where
  tidy := h.tidy.mono fun _ => (mem_held_filled h.length_eq).mpr
  node := by
    refine hD.input h.plan ?_
    rw [inputs_withInputs h.length_eq]
    exact List.mem_append_right _ List.mem_cons_self
  around := List.forall_mem_cons.mpr ⟨hD.filled h.length_eq h.plan hD.singleton, h.around⟩

theorem tail (hD : Hereditary D) (h : SoundInputs D others around q done (p :: rest) w) (hr : D r)
    (hu : u.Tidy (others ++ (q.gap done rest :: around).flatMap cells ++ r.cells)) :
    SoundInputs D others around q (done ++ [r]) rest u := by
  have hlen := length_gap h.length_eq r
  have htidy := hu.mono fun _ => (mem_held_filled hlen).mp
  have hplan := hD.filled h.length_eq h.plan hr
  rw [List.append_cons] at hlen htidy hplan
  exact ⟨hlen, htidy, hplan, h.around⟩

end SoundInputs

mutual

/-- **A rule that stays within a class finds plans of the class, and no cell that nothing holds.** -/
theorem sound_of_applies (hD : Hereditary D)
    (hrule : ∀ held p w, w.Tidy (held ++ p.cells) → D p → D (rule.put held p w).1)
    {around : List Plan} {p q : Plan} {w v : Workspace σ} {fs : List (Firing σ)}
    (h : Applies rule others around p w fs q v)
    (hp : Firing.Sound D ⟨rule, others, around, p, w⟩) :
    (D q ∧ v.Tidy (others ++ around.flatMap cells ++ q.cells)) ∧
      ∀ f ∈ fs, f.rule = rule ∧ f.Sound D := by
  match h with
  | .node (r := r) hput h =>
      have hr : D r := by
        have := hrule _ _ _ hp.tidy hp.node
        rwa [Firing.held, hput] at this
      obtain ⟨hq, hfs⟩ := sound_of_appliesInputs hD hrule h (.start hput hr hp.around)
      exact ⟨hq, List.forall_mem_cons.mpr ⟨⟨rfl, hp⟩, hfs⟩⟩

theorem sound_of_appliesInputs (hD : Hereditary D)
    (hrule : ∀ held p w, w.Tidy (held ++ p.cells) → D p → D (rule.put held p w).1)
    {around done todo : List Plan} {q q' : Plan} {w v : Workspace σ} {fs : List (Firing σ)}
    (h : AppliesInputs rule others around q done todo w fs q' v)
    (hq : SoundInputs D others around q done todo w) :
    (D q' ∧ v.Tidy (others ++ around.flatMap cells ++ q'.cells)) ∧
      ∀ f ∈ fs, f.rule = rule ∧ f.Sound D := by
  match h with
  | .nil =>
      have hplan := hq.plan
      have htidy := hq.tidy
      rw [List.append_nil] at hplan htidy
      exact ⟨⟨hplan, htidy⟩, List.forall_mem_nil _⟩
  | .cons hp hrest =>
      obtain ⟨⟨hr, hu⟩, hfs⟩ := sound_of_applies hD hrule hp (hq.head hD)
      obtain ⟨hq', hgs⟩ := sound_of_appliesInputs hD hrule hrest (hq.tail hD hr hu)
      exact ⟨hq', List.forall_mem_append.mpr ⟨hfs, hgs⟩⟩

end

theorem tidy_of_applies {around : List Plan} {p q : Plan} {w v : Workspace σ} {fs : List (Firing σ)}
    (h : Applies rule others around p w fs q v) :
    v.Tidy (others ++ around.flatMap cells ++ q.cells) := by
  cases h with
  | node hput h =>
      exact (sound_of_appliesInputs hereditary_true (fun _ _ _ _ _ => trivial) h
        (.start hput trivial fun _ _ => trivial)).1.2

/-! ### Schemes -/

mutual

/-- **Firings that keep the schemes of their nodes, and what states around them read, keep the scheme of
the plan.** -/
theorem scheme_of_applies {around : List Plan} {p q : Plan} {w v : Workspace σ}
    {fs : List (Firing σ)} (h : Applies rule others around p w fs q v)
    (hfs : ∀ f ∈ fs, f.KeepsScheme ∧ f.Quiet) :
    q.scheme v.cells = p.scheme w.cells ∧
      ∀ a ∈ around, ∀ k ∈ a.stateCells, v.cells.get k = w.cells.get k := by
  match h with
  | .node (r := r) (u := u) hput h =>
      obtain ⟨⟨hkeep, hquiet⟩, hfs⟩ := List.forall_mem_cons.mp hfs
      rw [Firing.KeepsScheme, Firing.after, Firing.held, hput] at hkeep
      obtain ⟨hscheme, haround⟩ := scheme_of_appliesInputs h rfl hfs
      rw [List.nil_append, withInputs_inputs] at hscheme
      refine ⟨hscheme.trans hkeep, fun a ha k hk => (haround a ha k hk).trans ?_⟩
      have hread := hquiet a ha k hk
      rwa [Firing.after, Firing.held, hput] at hread

theorem scheme_of_appliesInputs {around done todo : List Plan} {q q' : Plan} {w v : Workspace σ}
    {fs : List (Firing σ)} (h : AppliesInputs rule others around q done todo w fs q' v)
    (hlen : (done ++ todo).length = q.inputs.length) (hfs : ∀ f ∈ fs, f.KeepsScheme ∧ f.Quiet) :
    q'.scheme v.cells = (q.withInputs (done ++ todo)).scheme w.cells ∧
      ∀ a ∈ around, ∀ k ∈ a.stateCells, v.cells.get k = w.cells.get k := by
  match h with
  | .nil =>
      rw [List.append_nil]
      exact ⟨rfl, fun _ _ _ _ => rfl⟩
  | .cons (r := r) hp hrest =>
      obtain ⟨hfs, hgs⟩ := List.forall_mem_append.mp hfs
      obtain ⟨hinput, hread⟩ := scheme_of_applies hp hfs
      obtain ⟨hgap, haround⟩ := List.forall_mem_cons.mp hread
      have hlen' := length_gap hlen r
      have hfilled := scheme_filled hlen hgap hinput
      rw [List.append_cons] at hlen' hfilled
      -- the node has the new input in its gap when the rule goes on to the next one
      obtain ⟨hscheme, hread⟩ := scheme_of_appliesInputs hrest hlen' hgs
      exact ⟨hscheme.trans hfilled, fun a ha k hk => (hread a ha k hk).trans (haround a ha k hk)⟩

end

/-! ### More cells that are held -/

theorem Firing.Indifferent.put {f : Firing σ} {held : List CellId} {w : Workspace σ}
    (h : f.Indifferent) (hheld : ∀ k ∈ f.held, k ∈ held) (hw : f.before.Outlived w) :
    ∃ u, f.rule.put held f.node w = (f.after.1, u) ∧ f.after.2.Outlived u := by
  obtain ⟨hplan, hout⟩ := h held w hheld hw
  refine ⟨(f.rule.put held f.node w).2, Prod.ext hplan rfl, hout.release fun k hk => ?_⟩
  rw [List.mem_append] at hk ⊢
  rw [hplan]
  exact hk.imp_left (hheld k)

mutual

/-- **A rule whose firings are indifferent does the same when more cells are held.** -/
theorem outlived_of_applies {around : List Plan} {p q : Plan} {w v : Workspace σ}
    {fs : List (Firing σ)} (h : Applies rule others around p w fs q v)
    (hfs : ∀ f ∈ fs, f.Indifferent) {more : List CellId} {u : Workspace σ}
    (hmore : ∀ k ∈ others, k ∈ more) (hu : w.Outlived u) :
    ∃ gs t, Applies rule more around p u gs q t ∧ v.Outlived t := by
  match h with
  | .node hput h =>
      obtain ⟨hfirst, hfs⟩ := List.forall_mem_cons.mp hfs
      have hheld : ∀ k ∈ others ++ around.flatMap cells, k ∈ more ++ around.flatMap cells := by
        intro k hk
        rw [List.mem_append] at hk ⊢
        exact hk.imp_left (hmore k)
      obtain ⟨u', hput', hu'⟩ := hfirst.put hheld hu
      rw [Firing.after, Firing.held, hput] at hput' hu'
      obtain ⟨gs, t, hrun, ht⟩ := outlived_of_appliesInputs h hfs hmore hu'
      exact ⟨_, t, .node hput' hrun, ht⟩

theorem outlived_of_appliesInputs {around done todo : List Plan} {q q' : Plan} {w v : Workspace σ}
    {fs : List (Firing σ)} (h : AppliesInputs rule others around q done todo w fs q' v)
    (hfs : ∀ f ∈ fs, f.Indifferent) {more : List CellId} {u : Workspace σ}
    (hmore : ∀ k ∈ others, k ∈ more) (hu : w.Outlived u) :
    ∃ gs t, AppliesInputs rule more around q done todo u gs q' t ∧ v.Outlived t := by
  match h with
  | .nil => exact ⟨[], u, .nil, hu⟩
  | .cons hp hrest =>
      obtain ⟨hfs, hgs⟩ := List.forall_mem_append.mp hfs
      obtain ⟨fs', u', hp', hu'⟩ := outlived_of_applies hp hfs hmore hu
      obtain ⟨gs', t, hrest', ht⟩ := outlived_of_appliesInputs hrest hgs hmore hu'
      exact ⟨fs' ++ gs', t, .cons hp' hrest', ht⟩

end

/-! ### The rule that gives back its argument -/

mutual

/-- A rule that gives back its argument leaves the plan, and is used at each node once, in preorder. -/
theorem nodes_of_applies (hrule : ∀ held p w, (rule.fire held p w).1 = p) {around : List Plan}
    {p q : Plan} {w v : Workspace σ} {fs : List (Firing σ)}
    (h : Applies rule others around p w fs q v) : q = p ∧ fs.map Firing.node = p.preorder := by
  match h with
  | .node (r := r) hput hinputs =>
      obtain rfl : r = p := (congrArg Prod.fst hput).symm.trans (hrule _ _ _)
      obtain ⟨hq, hnodes⟩ := nodes_of_appliesInputs hrule hinputs
      rw [List.nil_append, withInputs_inputs] at hq
      exact ⟨hq, by rw [List.map_cons, hnodes, preorder_eq]⟩

theorem nodes_of_appliesInputs (hrule : ∀ held p w, (rule.fire held p w).1 = p)
    {around done todo : List Plan} {q q' : Plan} {w v : Workspace σ} {fs : List (Firing σ)}
    (h : AppliesInputs rule others around q done todo w fs q' v) :
    q' = q.withInputs (done ++ todo) ∧ fs.map Firing.node = todo.flatMap preorder := by
  match h with
  | .nil => exact ⟨by rw [List.append_nil], rfl⟩
  | .cons hp hrest =>
      obtain ⟨rfl, hnodes⟩ := nodes_of_applies hrule hp
      obtain ⟨hq', hrest⟩ := nodes_of_appliesInputs hrule hrest
      exact ⟨by rw [hq', ← List.append_cons], by
        rw [List.map_append, hnodes, hrest, List.flatMap_cons]⟩

end

end Planner
