import Planner.Proofs.Plan.Copies

/-! # Exact substitution

A substitution puts a copy of the replacement at each read of the name and leaves every other node as
it is; the copies are not searched again.  `Replaced` says what stands at a place behind it, where a
node stood before.

Each copy makes cells, so the table grows along the walk (`Cells.Extends`), and what was put in early
keeps its scheme in the tables that follow (`Settled.extends`).  Main statement:
`substitute_replaces`. -/

namespace Planner

/-! ### Tables that grow -/

/-- Cells may have been made, and those that were there hold what they held. -/
structure Cells.Extends (table after : Cells) : Prop where
  next_le : table.next ≤ after.next
  get_eq : ∀ k < table.next, after.get k = table.get k

namespace Cells.Extends

variable {table middle after : Cells}

theorem refl (table : Cells) : table.Extends table := ⟨Nat.le_refl _, fun _ _ => rfl⟩

theorem trans (h : table.Extends middle) (h' : middle.Extends after) : table.Extends after where
  next_le := Nat.le_trans h.next_le h'.next_le
  get_eq k hk := (h'.get_eq k (Nat.lt_of_lt_of_le hk h.next_le)).trans (h.get_eq k hk)

end Cells.Extends

namespace Plan

open Cells

variable {p q r : Plan} {ps : List Plan} {name : String} {table after later : Cells} {path : List ℕ}

theorem Placed.extends (hp : p.Placed table) (h : table.Extends after) : p.Placed after where
  held k hk := by
    rw [h.get_eq k (hp.held.lt_next hk)]
    exact hp.held k hk
  known k hk := Nat.lt_of_lt_of_le (hp.known k hk) h.next_le

/-- A plan whose states read cells of a table has one scheme in all tables that the table grows to. -/
theorem scheme_extends (hp : ∀ k ∈ p.stateCells, k < table.next) (h : table.Extends after) :
    p.scheme after = p.scheme table :=
  scheme_congr (fun k hk => h.get_eq k (hp k hk))

section Copy

variable (hr : r.Placed table)

include hr

theorem extends_copy : table.Extends (r.copy table).2 where
  next_le := next_le_copy hr
  get_eq _ hk := get_copy_of_lt hr.held hk

theorem known_copy : ∀ k ∈ (r.copy table).1.stateCells, k < (r.copy table).2.next := by
  intro k hk
  obtain ⟨j, hj, rfl⟩ := (mem_stateCells_copy hr.held).mp hk
  by_cases hcell : j ∈ r.cells
  · exact copyCell_lt_next hr.held hcell
  · rw [copyCell, if_neg hcell]
    exact Nat.lt_of_lt_of_le (hr.known j hj) (next_le_copy hr)

theorem scheme_copy_of_placed : (r.copy table).1.scheme (r.copy table).2 = r.scheme table := by
  rw [copy, scheme_withNotes]
  refine scheme_relink (fun k hk => ?_)
  rw [renamed_duplicate hr.held]
  exact get_copyCell_of_stateCell hr hk

end Copy

/-! ### Places -/

/-- What stands at a place behind a substitution, where `q` stood: at a read of the name a plan like the
replacement, which no comparison tells from it, and otherwise the same node over as many inputs. -/
structure Replaced (name : String) (r q d : Plan) : Prop where
  read : q.temp? = some name → d.bare = r.bare ∧ ∀ x, d.same x = r.same x
  kept : q.temp? ≠ some name → d = q.withInputs d.inputs ∧ d.inputs.length = q.inputs.length

theorem exists_getElem?_of_forall₂ {α β : Type} {R : α → β → Prop} {as : List α} {bs : List β}
    (h : List.Forall₂ R as bs) {i : ℕ} {a : α} (ha : as[i]? = some a) :
    ∃ b, bs[i]? = some b ∧ R a b := by
  induction h generalizing i with
  | nil => cases ha
  | cons hab _ ih =>
      cases i with
      | zero =>
          obtain rfl := Option.some.inj ha
          exact ⟨_, rfl, hab⟩
      | succ i => exact ih ha

theorem at?_substitute (r : Plan) (name : String) (table : Cells) (hq : p.at? path = some q) :
    ∃ d, (p.substitute name r table).1.at? path = some d ∧ Replaced name r q d := by
  revert path q
  refine substitute_relates (R := fun p p' => ∀ {q path}, p.at? path = some q →
    ∃ d, p'.at? path = some d ∧ Replaced name r q d) ?_ ?_ p table
  · intro p table htemp q path hq
    cases path with
    | nil =>
        obtain rfl := Option.some.inj hq
        exact ⟨_, rfl, fun _ => ⟨bare_copy r table, same_congr_left (bare_copy r table)⟩,
          fun hne => absurd htemp hne⟩
    | cons i path =>
        -- A read has no inputs.
        rw [at?, inputs_eq_nil_of_temp? htemp] at hq
        cases hq
  · intro p qs htemp hqs q path hq
    have hinputs : (p.withInputs qs).inputs = qs := inputs_withInputs hqs.length_eq.symm
    cases path with
    | nil =>
        obtain rfl := Option.some.inj hq
        refine ⟨_, rfl, fun h => absurd h htemp, fun _ => ?_⟩
        rw [hinputs]
        exact ⟨rfl, hqs.length_eq.symm⟩
    | cons i path =>
        obtain ⟨input, hinput, hq⟩ := Option.bind_eq_some_iff.mp hq
        obtain ⟨output, houtput, hrelated⟩ := exists_getElem?_of_forall₂ hqs hinput
        obtain ⟨d, hd, hreplaced⟩ := hrelated hq
        refine ⟨d, ?_, hreplaced⟩
        rw [at?, hinputs, houtput]
        exact hd

theorem reads_eq_countP (name : String) (p : Plan) :
    p.reads name = p.preorder.countP (fun q => decide (q.temp? = some name)) := by
  induction p using induction_inputs with
  | step p ih =>
      have hinputs : total (p.inputs.map (reads name)) =
          (p.inputs.flatMap preorder).countP (fun q => decide (q.temp? = some name)) := by
        generalize p.inputs = ps at ih
        induction ps with
        | nil => rfl
        | cons q ps ihs =>
            rw [List.map_cons, total_cons, List.flatMap_cons, List.countP_append,
              ih q List.mem_cons_self, ihs (fun x hx => ih x (List.mem_cons_of_mem q hx))]
      rw [reads_eq, preorder_eq, List.countP_cons, hinputs, Nat.add_comm]
      simp

theorem temps_substitute (r : Plan) (table : Cells) (h : name ∈ p.temps) :
    (p.substitute name r table).1.temps = (p.temps.erase name).union r.temps := by
  refine SortedSet.ext_mem (fun x => ?_)
  rw [mem_temps_substitute, SortedSet.mem_union, SortedSet.mem_erase]
  simp [h]

/-! ### Schemes -/

/-- The plan's states read cells of the table, and its reads of the name have the scheme of the
replacement. -/
structure Fits (name : String) (r : Plan) (table : Cells) (p : Plan) : Prop where
  known : ∀ k ∈ p.stateCells, k < table.next
  reads : ∀ s, (name, s) ∈ p.scans → r.scheme table = .ok s

theorem Fits.input (hp : Fits name r table p) (hq : q ∈ p.inputs) : Fits name r table q where
  known k hk := hp.known k (mem_stateCells.mpr (Or.inr ⟨q, hq, hk⟩))
  reads s hs := by
    refine hp.reads s ?_
    rw [scans_eq]
    exact List.mem_append_right _ (List.mem_flatMap.mpr ⟨q, hq, hs⟩)

/-- What a substitution has made of a plan has the scheme that the plan had. -/
structure Settled (table after : Cells) (p q : Plan) : Prop where
  known : ∀ k ∈ q.stateCells, k < after.next
  scheme : q.scheme after = p.scheme table

theorem Settled.extends (h : Settled table after p q) (hlater : after.Extends later) :
    Settled table later p q where
  known k hk := Nat.lt_of_lt_of_le (h.known k hk) hlater.next_le
  scheme := (scheme_extends h.known hlater).trans h.scheme

theorem settled_copy (hr : r.Placed table) (hp : Fits name r table p) (htemp : p.temp? = some name)
    (h : table.Extends after) : Settled table (r.copy after).2 p (r.copy after).1 where
  known := known_copy (hr.extends h)
  scheme := by
    obtain ⟨s, hscan, hscheme⟩ := scan?_of_temp? htemp
    have hread : r.scheme table = .ok s := by
      refine hp.reads s ?_
      rw [scans_eq, hscan]
      exact List.mem_cons_self
    rw [scheme_copy_of_placed (hr.extends h), scheme_extends hr.known h, hread, hscheme]

theorem settled_withInputs {qs : List Plan} (hp : ∀ k ∈ p.stateCells, k < table.next)
    (h : table.Extends after) (hqs : List.Forall₂ (Settled table after) p.inputs qs) :
    Settled table after p (p.withInputs qs) where
  known k hk := by
    rw [mem_stateCells, stateCell?_withInputs, inputs_withInputs hqs.length_eq.symm] at hk
    rcases hk with hk | ⟨q, hq, hk⟩
    · exact Nat.lt_of_lt_of_le (hp k (mem_stateCells.mpr (Or.inl hk))) h.next_le
    · obtain ⟨_, _, hsettled⟩ := exists_mem_of_forall₂ hqs hq
      exact hsettled.known k hk
  scheme := by
    refine (scheme_withInputs (fun k hk => ?_) (hqs.imp fun _ _ hq => hq.scheme.symm)).symm
    exact (h.get_eq k (hp k (mem_stateCells.mpr (Or.inl hk)))).symm

/-- The walk of a substitution over several plans, from what it does to each. -/
theorem settled_foldStateAll
    (h : ∀ p ∈ ps, ∀ s : ℕ × Cells, table.Extends s.2 →
      s.2.Extends (p.foldState (substituteRoot name r) s).2.2 ∧
        Settled table (p.foldState (substituteRoot name r) s).2.2 p
          (p.foldState (substituteRoot name r) s).1)
    (s : ℕ × Cells) (hs : table.Extends s.2) :
    s.2.Extends (foldStateAll (substituteRoot name r) ps s).2.2 ∧
      List.Forall₂ (Settled table (foldStateAll (substituteRoot name r) ps s).2.2) ps
        (foldStateAll (substituteRoot name r) ps s).1 := by
  induction ps generalizing s with
  | nil => exact ⟨.refl _, .nil⟩
  | cons p rest ih =>
      obtain ⟨hgrown, hp⟩ := h p List.mem_cons_self s hs
      obtain ⟨hgrown', hrest⟩ := ih (fun q hq => h q (List.mem_cons_of_mem p hq))
        (p.foldState (substituteRoot name r) s).2 (hs.trans hgrown)
      simp only [foldStateAll]
      exact ⟨hgrown.trans hgrown', .cons (hp.extends hgrown') hrest⟩

/-- The walk of a substitution over a plan, from any table that the first one has grown to. -/
theorem settled_foldState (hr : r.Placed table) (hp : Fits name r table p) (s : ℕ × Cells)
    (hs : table.Extends s.2) :
    s.2.Extends (p.foldState (substituteRoot name r) s).2.2 ∧
      Settled table (p.foldState (substituteRoot name r) s).2.2 p
        (p.foldState (substituteRoot name r) s).1 := by
  induction p using induction_inputs generalizing s with
  | step p ih =>
      obtain ⟨hgrown, hinputs⟩ :=
        settled_foldStateAll (fun q hq s => ih q hq (hp.input hq) s) s hs
      rw [foldState_eq]
      unfold substituteRoot
      split_ifs with htemp
      · have hr' := hr.extends (hs.trans hgrown)
        exact ⟨hgrown.trans (extends_copy hr'), settled_copy hr hp htemp (hs.trans hgrown)⟩
      · exact ⟨hgrown, settled_withInputs hp.known (hs.trans hgrown) hinputs⟩

/-- **A substitution replaces the reads of a name and nothing else.** -/
theorem substitute_replaces (p r : Plan) (name : String) (table : Cells) :
    ∃ q count after, p.substitute name r table = (q, count, after) ∧
      count = p.preorder.countP (fun n => decide (n.temp? = some name)) ∧
      (∀ path n, p.at? path = some n → ∃ d, q.at? path = some d ∧ Replaced name r n d) ∧
      (0 < count → q.temps = (p.temps.erase name).union r.temps) ∧
      (count = 0 → q = p ∧ after = table) ∧
      (p.Placed table → r.Placed table → (∀ s, (name, s) ∈ p.scans → r.scheme table = .ok s) →
        q.scheme after = p.scheme table) := by
  have hcount := substitute_count p name r table
  refine ⟨(p.substitute name r table).1, (p.substitute name r table).2.1,
    (p.substitute name r table).2.2, rfl, ?_, fun path n hn => at?_substitute r name table hn,
    fun hpos => ?_, fun hzero => ?_, fun hp hr hreads => ?_⟩
  · rw [hcount, reads_eq_countP]
  · refine temps_substitute r table ?_
    by_contra hnot
    rw [hcount, reads_eq_zero_iff.mpr hnot] at hpos
    exact Nat.lt_irrefl 0 hpos
  · rw [hcount, reads_eq_zero_iff] at hzero
    rw [substitute_of_not_mem hzero]
    exact ⟨rfl, rfl⟩
  · exact (settled_foldState hr ⟨hp.known, hreads⟩ (0, table) (.refl table)).2.scheme

/-- A fixpoint and a state that reads it; the body of the fixpoint reads `x`. -/
def tracked : Plan :=
  binary {} .union (unary {} (.fixpoint 0) (leaf {} (.scanTemp "x" ⟨[.named "a" .int]⟩)))
    (leaf {} (.state "s" (some 0)))

/-- Two reads of `x`, one of them beside a state that reads the fixpoint of `tracked`. -/
def paired : Plan :=
  binary {} .crossProduct (leaf {} (.scanTemp "x" ⟨[.named "a" .int]⟩))
    (binary {} .unionAll (leaf {} (.state "s" (some 0))) (leaf {} (.scanTemp "x" ⟨[.named "a" .int]⟩)))

theorem placed_tracked : tracked.Placed ⟨[.bound ⟨[.named "a" .int]⟩]⟩ := by
  refine ⟨?_, ?_⟩
  · simp only [Held, cells, preorder, preorderFrom, tracked, inputs, List.cons_append, List.nil_append]
    decide
  · simp only [stateCells, preorder, preorderFrom, tracked, inputs, List.cons_append, List.nil_append]
    decide

theorem placed_paired : paired.Placed ⟨[.bound ⟨[.named "a" .int]⟩]⟩ := by
  refine ⟨?_, ?_⟩
  · simp only [Held, cells, preorder, preorderFrom, paired, inputs, List.cons_append, List.nil_append]
    decide
  · simp only [stateCells, preorder, preorderFrom, paired, inputs, List.cons_append, List.nil_append]
    decide

/-- The replacement reads the name that it replaces, and brings a fixpoint of its own. -/
theorem substitute_replaces_tracked : ∃ q after,
    paired.substitute "x" tracked ⟨[.bound ⟨[.named "a" .int]⟩]⟩ = (q, 2, after) ∧
      q.temps = (paired.temps.erase "x").union tracked.temps ∧
      q.scheme after = .ok ⟨[.named "a" .int, .named "a" .int]⟩ := by
  obtain ⟨q, count, after, hq, hcount, -, htemps, -, hscheme⟩ :=
    substitute_replaces paired tracked "x" ⟨[.bound ⟨[.named "a" .int]⟩]⟩
  have hscans : paired.scans = [("x", ⟨[.named "a" .int]⟩), ("x", ⟨[.named "a" .int]⟩)] := rfl
  have hreads : ∀ s, ("x", s) ∈ paired.scans →
      tracked.scheme ⟨[.bound ⟨[.named "a" .int]⟩]⟩ = .ok s := by
    intro s hs
    rw [hscans] at hs
    obtain rfl : s = ⟨[.named "a" .int]⟩ := by simpa using hs
    rfl
  have htwo : count = 2 := by
    rw [hcount]
    simp only [preorder, preorderFrom, paired, inputs, List.cons_append, List.nil_append]
    decide
  subst htwo
  exact ⟨q, after, hq, htemps (by decide), hscheme placed_paired placed_tracked hreads⟩

end Plan

end Planner
