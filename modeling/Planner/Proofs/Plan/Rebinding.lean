import Planner.Proofs.Plan.Copies

/-! # The scheme of a fixpoint's body

A fixpoint that is given a body publishes the body's scheme in its cell, where states read it; its own
scheme is that of the body, read anew.  The two are the same unless a state in the body reads another
scheme behind the call than before it, for a scheme that was found once is found again as long as the
states that had one have it still (`Persists`, `scheme_persists`).

Main statement: `bindBody_publishes`, however often a fixpoint has been given bodies before, the next
one's scheme is published for all of its states, and it is the scheme of the fixpoint as well if the
states in the body read on what they read before.  `bindBody_scheme_differs` has two bodies whose states
do not. -/

namespace Planner

open Relation

/-! ### Schemes that are found again -/

/-- What is found on the left is found on the right; a failure may end. -/
def Persists {α : Type} (x y : Except PlanError α) : Prop := ∀ a, x = .ok a → y = .ok a

namespace Persists

variable {α β : Type} {x y : Except PlanError α} {f g : α → Except PlanError β}

theorem refl (x : Except PlanError α) : Persists x x := fun _ h => h

theorem bind (h : Persists x y) (hf : ∀ a, Persists (f a) (g a)) : Persists (x >>= f) (y >>= g) := by
  intro b hb
  cases x with
  | error e => cases hb
  | ok a =>
      rw [h a rfl]
      exact hf a b hb

theorem foldlM {step : β → Except PlanError α → Except PlanError β}
    (hstep : ∀ acc x y, Persists x y → Persists (step acc x) (step acc y))
    {xs ys : List (Except PlanError α)} (h : List.Forall₂ Persists xs ys) (acc : β) :
    Persists (xs.foldlM step acc) (ys.foldlM step acc) := by
  induction h generalizing acc with
  | nil => exact refl _
  | cons hxy _ ih =>
      rw [List.foldlM_cons, List.foldlM_cons]
      exact (hstep acc _ _ hxy).bind ih

end Persists

theorem Unary.scheme_persists (op : Unary) {x y : Except PlanError Scheme} (h : Persists x y) :
    Persists (op.scheme x) (op.scheme y) := by
  cases op with
  | project columns =>
      exact (Persists.refl _).bind (fun _ => h.bind (fun _ => Persists.refl _))
  | apply mappings =>
      exact (Persists.refl _).bind (fun _ => h.bind (fun _ => Persists.refl _))
  | groupBy columns =>
      exact (Persists.refl _).bind (fun _ => h.bind (fun _ => Persists.refl _))
  | _ => exact h

theorem Binary.scheme_persists (op : Binary) {x y x' y' : Except PlanError Scheme} (h : Persists x y)
    (h' : Persists x' y') : Persists (op.scheme x x') (op.scheme y y') := by
  cases op with
  | join condition => exact h.bind (fun _ => h'.bind (fun _ => Persists.refl _))
  | crossProduct => exact h.bind (fun _ => h'.bind (fun _ => Persists.refl _))
  | projectingJoin condition columns =>
      cases columns with
      | none => exact h.bind (fun _ => h'.bind (fun _ => Persists.refl _))
      | some columns => exact h.bind (fun _ => h'.bind (fun _ => Persists.refl _))
  | doWhile => exact Persists.refl _
  | _ => exact h

theorem Nary.scheme_persists (op : Nary) {xs ys : List (Except PlanError Scheme)}
    (h : List.Forall₂ Persists xs ys) : Persists (op.scheme xs) (op.scheme ys) := by
  cases op with
  | join conditions =>
      apply Persists.foldlM _ h
      exact fun acc x y hxy => hxy.bind (fun _ => Persists.refl _)
  | sequence => exact Persists.refl _

theorem Cells.stateScheme_eq_ok {table : Cells} {name : String} {k : CellId} {s : Scheme} :
    table.stateScheme name (some k) = .ok s ↔ table.scheme? k = some s := by
  unfold stateScheme scheme?
  rw [Option.map_some]
  cases table.get k <;> simp

namespace Plan

variable {p f g first body state : Plan} {cells table after : Cells} {cell k : CellId} {name : String}

/-- **A scheme that is found is found again** where the states that had a scheme have it still. -/
theorem scheme_persists (h : ∀ k ∈ p.stateCells, ∀ s, cells.scheme? k = some s →
    table.scheme? k = some s) : Persists (p.scheme cells) (p.scheme table) := by
  induction p using induction_inputs with
  | step p ih =>
      have hroot : ∀ k, p.stateCell? = some k → ∀ s, cells.scheme? k = some s →
          table.scheme? k = some s := fun k hk => h k (mem_stateCells.mpr (Or.inl hk))
      have hinputs : ∀ q ∈ p.inputs, Persists (q.scheme cells) (q.scheme table) := fun q hq =>
        ih q hq (fun k hk => h k (mem_stateCells.mpr (Or.inr ⟨q, hq, hk⟩)))
      cases p with
      | leaf notes op =>
          -- Only a state that is attached depends on the table.
          cases op with
          | state name cell =>
              cases cell with
              | none => exact Persists.refl _
              | some k =>
                  intro s hs
                  exact Cells.stateScheme_eq_ok.mpr (hroot k rfl s (Cells.stateScheme_eq_ok.mp hs))
          | _ => exact Persists.refl _
      | unary notes op input => exact op.scheme_persists (hinputs input List.mem_cons_self)
      | binary notes op left right =>
          exact op.scheme_persists (hinputs left List.mem_cons_self)
            (hinputs right (List.mem_cons_of_mem _ List.mem_cons_self))
      | nary notes op inputs =>
          rw [scheme, scheme, schemes_eq_map, schemes_eq_map]
          refine op.scheme_persists ?_
          rw [List.forall₂_map_left_iff, List.forall₂_map_right_iff, List.forall₂_same]
          exact hinputs

/-! ### Giving a fixpoint its bodies -/

theorem bindBody_value (hcell : f.cell? = some cell) (body : Plan) (table : Cells) :
    (f.bindBody body table).value =
      .ok (unary f.notes (.fixpoint cell) body, table.publish cell (body.scheme table).toOption) := by
  unfold bindBody
  rw [hcell]
  dsimp only
  cases body.scheme table <;> rfl

/-- A fixpoint before and behind a call that gives it a body. -/
def Rebound (f g : Plan) : Prop :=
  ∃ body table after, (f.bindBody body table).value = .ok (g, after)

theorem Rebound.cell?_eq (h : Rebound f g) : g.cell? = f.cell? := by
  obtain ⟨body, table, after, h⟩ := h
  cases hcell : f.cell? with
  | none =>
      unfold bindBody at h
      rw [hcell] at h
      cases h
  | some cell =>
      rw [(bindBody_eq_ok hcell h).1]
      rfl

theorem cell?_of_rebound (hrun : ReflTransGen Rebound first f) : f.cell? = first.cell? := by
  induction hrun with
  | refl => rfl
  | tail _ hstep ih => rw [hstep.cell?_eq, ih]

theorem makeState_eq_ok : f.makeState name = .ok state ↔
    ∃ cell, f.cell? = some cell ∧ state = leaf {} (.state name (some cell)) := by
  unfold makeState
  cases f.cell? with
  | none => simp
  | some cell => simp [eq_comm]

@[simp] theorem scheme_fixpoint (notes : Notes) (cell : CellId) (body : Plan) (table : Cells) :
    (unary notes (.fixpoint cell) body).scheme table = body.scheme table := rfl

theorem get_publish_retain {live : List CellId} (hcell : cell < table.next) (hlive : cell ∈ live)
    (content : Option Scheme) :
    ((table.publish cell content).retain live).get cell = Cell.ofScheme? content := by
  rw [Cells.get_retain_of_mem hlive, Cells.get_publish_self hcell]

/-- A body has its scheme behind the call if its states read cells that are still held, and those of
the fixpoint itself had no scheme or the body's. -/
theorem scheme_publish_retain {live : List CellId} {s : Scheme} (hcell : cell < table.next)
    (hlive : cell ∈ live) (hs : body.scheme table = .ok s)
    (hreads : ∀ k ∈ body.stateCells, ∀ old, table.scheme? k = some old →
      k ∈ live ∧ (k = cell → old = s)) :
    body.scheme ((table.publish cell (some s)).retain live) = .ok s := by
  refine scheme_persists (fun k hk old hold => ?_) s hs
  obtain ⟨hkept, hsame⟩ := hreads k hk old hold
  -- The fixpoint's own cell is the only one that changes, and its states had what it holds now.
  by_cases hne : k = cell
  · rw [hne, Cells.scheme?, get_publish_retain hcell hlive, hsame hne]
    rfl
  · rw [Cells.scheme?, Cells.get_retain_of_mem hkept, Cells.get_publish_of_ne hne]
    exact hold

/-- **The scheme of the next body is published.**  The states may have been made at any time, and
`live` lists what is held behind the call, where the fixpoint's old body is no more. -/
theorem bindBody_publishes (hrun : ReflTransGen Rebound first f)
    (hstate : first.makeState name = .ok state) (hf : f.Held table) (body : Plan) :
    ∃ g after, (f.bindBody body table).value = .ok (g, after) ∧ g.makeState name = .ok state ∧
      ∀ live, g.cells ⊆ live →
        (∀ s, body.scheme table = .ok s → state.scheme (after.retain live) = .ok s ∧
          ((∀ k ∈ body.stateCells, ∀ old, table.scheme? k = some old →
              k ∈ live ∧ (f.cell? = some k → old = s)) →
            g.scheme (after.retain live) = .ok s)) ∧
        ∀ e, body.scheme table = .error e →
          state.scheme (after.retain live) = .error (.recursion (.unboundState name)) := by
  obtain ⟨cell, hcell, rfl⟩ := makeState_eq_ok.mp hstate
  rw [← cell?_of_rebound hrun] at hcell
  refine ⟨_, _, bindBody_value hcell body table, makeState_eq_ok.mpr ⟨cell, rfl, rfl⟩, ?_⟩
  intro live hcells
  have hheld : cell < table.next := hf.lt_next (mem_cells.mpr (Or.inl hcell))
  have hlive : cell ∈ live := hcells (mem_cells.mpr (Or.inl rfl))
  refine ⟨fun s hs => ⟨?_, fun hreads => ?_⟩, fun e he => ?_⟩
  · rw [hs]
    apply Cells.stateScheme_eq_ok.mpr
    rw [Cells.scheme?, get_publish_retain hheld hlive]
    rfl
  · rw [hs, scheme_fixpoint]
    refine scheme_publish_retain hheld hlive hs (fun k hk old hold => ?_)
    obtain ⟨hkept, hsame⟩ := hreads k hk old hold
    exact ⟨hkept, fun heq => hsame (heq ▸ hcell)⟩
  · rw [he, scheme, Leaf.scheme, Cells.stateScheme, Option.map_some, get_publish_retain hheld hlive]
    rfl

/-- The union of one column with the rows found so far, in the fixpoint `hole`. -/
def growing : Plan := binary {} .union oneColumn (leaf {} (.state "s" (some 0)))

theorem stateCells_growing : growing.stateCells = [0] := by
  simp only [stateCells, preorder, preorderFrom, growing, oneColumn, inputs, List.cons_append,
    List.nil_append]
  rfl

/-- A fixpoint that has a body gets another one, with a state in it that was made before the first. -/
theorem bindBody_publishes_growing : ∃ f table g after,
    (hole.bindBody oneColumn ⟨[.unbound]⟩).value = .ok (f, table) ∧
      (f.bindBody growing table).value = .ok (g, after) ∧
      g.scheme (after.retain g.cells) = .ok ⟨[.named "a" .int]⟩ ∧
      (after.retain g.cells).stateScheme "s" (some 0) = .ok ⟨[.named "a" .int]⟩ := by
  have hfirst : (hole.bindBody oneColumn ⟨[.unbound]⟩).value =
      .ok (unary {} (.fixpoint 0) oneColumn, ⟨[.bound ⟨[.named "a" .int]⟩]⟩) := rfl
  have hheld : (unary {} (.fixpoint 0) oneColumn).Held ⟨[.bound ⟨[.named "a" .int]⟩]⟩ := by
    simp only [Held, cells, preorder, preorderFrom, oneColumn, inputs, List.cons_append,
      List.nil_append]
    decide
  have hmade : hole.makeState "s" = .ok (leaf {} (.state "s" (some 0))) := rfl
  obtain ⟨g, after, hbind, hstate, hlive⟩ :=
    bindBody_publishes (ReflTransGen.single ⟨_, _, _, hfirst⟩) hmade hheld growing
  obtain ⟨hread, hown⟩ := (hlive g.cells (List.Subset.refl _)).1 _ rfl
  refine ⟨_, _, g, after, hfirst, hbind, hown ?_, hread⟩
  -- The state in the body reads what the first body published, which is the scheme of this one too.
  obtain ⟨cell, hcell, hstate⟩ := makeState_eq_ok.mp hstate
  cases hstate
  rw [stateCells_growing]
  intro k hk old hold
  obtain rfl := List.mem_singleton.mp hk
  exact ⟨mem_cells.mpr (Or.inl hcell), fun _ => (Option.some.inj hold).symm⟩

/-- **A body may read on something else.**  One reads the scheme that the fixpoint had before the call
and the new one behind it; the other reads a fixpoint that only the body before it held. -/
theorem bindBody_scheme_differs :
    (∃ f table g after, (hole.bindBody oneColumn ⟨[.unbound]⟩).value = .ok (f, table) ∧
      let state := leaf {} (.state "s" (some 0))
      let body := binary {} .crossProduct state state
      (f.bindBody body table).value = .ok (g, after) ∧
        body.scheme table = .ok ⟨[.named "a" .int, .named "a" .int]⟩ ∧
        state.scheme after = .ok ⟨[.named "a" .int, .named "a" .int]⟩ ∧
        g.scheme after =
          .ok ⟨[.named "a" .int, .named "a" .int, .named "a" .int, .named "a" .int]⟩) ∧
    ∃ inner table f inside g after,
      ((leaf {} (.fixpoint 1)).bindBody oneColumn ⟨[.unbound, .unbound]⟩).value = .ok (inner, table) ∧
        (hole.bindBody inner table).value = .ok (f, inside) ∧
        let body := leaf {} (.state "s" (some 1))
        (f.bindBody body inside).value = .ok (g, after) ∧ g.cells = [0] ∧
          body.scheme inside = .ok ⟨[.named "a" .int]⟩ ∧
          g.scheme (after.retain [0]) = .error (.recursion (.detachedState "s")) := by
  refine ⟨⟨_, _, _, _, rfl, rfl, rfl, rfl, rfl⟩, _, _, _, _, _, _, rfl, rfl, rfl, ?_, rfl, rfl⟩
  simp only [cells, preorder, preorderFrom, inputs, List.cons_append, List.nil_append]
  rfl

end Plan

end Planner
