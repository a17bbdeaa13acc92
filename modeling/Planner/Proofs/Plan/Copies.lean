import Mathlib.Data.Option.Basic
import Mathlib.Logic.Relation
import Planner.Proofs.Plan.Equality
import Planner.Proofs.Plan.Schemes

/-! # Copies and their cells

A copy renames the cells of the plan's fixpoints to new cells that hold the same (`Copied`).
`Rebinding` is one call that gives a fixpoint of a plan a body, in a program in which fixpoints
outside the plan hold some cells.  Such calls leave every cell that is held outside the plan, and a
cell that is gone stays gone (`Rebinding.run`).

Main statement: `copy_isolates`, the plan and its copy can be given bodies without any effect on the
schemes in the other one. -/

namespace Planner

open Relation

/-! ### Tables of cells -/

theorem Cell.ofScheme?_ne_gone (content : Option Scheme) : ofScheme? content ≠ gone := by
  cases content <;> simp [ofScheme?]

namespace Cells

variable {table : Cells} {j k : CellId} {content : Option Scheme}

theorem lt_next_of_get_ne_gone (h : table.get k ≠ .gone) : k < table.next := by
  by_contra hk
  apply h
  rw [get, List.getElem?_eq_none (Nat.le_of_not_lt hk), Option.getD_none]

/-- A cell that is not gone holds what can be read from it. -/
theorem ofScheme?_scheme? (h : table.get k ≠ .gone) :
    Cell.ofScheme? (table.scheme? k) = table.get k := by
  unfold scheme?
  split
  · rename_i scheme hget
    rw [hget, Cell.ofScheme?]
  · rename_i hbound
    cases hget : table.get k with
    | unbound => rfl
    | bound scheme => exact absurd hget (hbound scheme)
    | gone => exact absurd hget h

theorem get_append_left {cells : List Cell} (h : k < table.next) :
    (Cells.mk (table.table ++ cells)).get k = table.get k := by
  rw [get, get, List.getElem?_append_left h]

theorem get_publish_of_ne (h : k ≠ j) : (table.publish j content).get k = table.get k := by
  rw [get, get, publish, List.getElem?_set_ne h.symm]

theorem get_publish_self (h : k < table.next) :
    (table.publish k content).get k = Cell.ofScheme? content := by
  rw [get, publish, List.getElem?_set_self h, Option.getD_some]

@[simp] theorem next_publish : (table.publish k content).next = table.next :=
  List.length_set

@[simp] theorem next_retain (live : List CellId) : (table.retain live).next = table.next :=
  List.length_mapIdx

theorem get_retain_of_mem {live : List CellId} (h : k ∈ live) :
    (table.retain live).get k = table.get k := by
  rw [get, retain, List.getElem?_mapIdx, get]
  cases table.table[k]? <;> simp [h]

theorem get_retain_of_not_mem {live : List CellId} (h : k ∉ live) :
    (table.retain live).get k = .gone := by
  rw [get, retain, List.getElem?_mapIdx]
  cases table.table[k]? <;> simp [h]

theorem get_retain_of_gone (live : List CellId) (h : table.get k = .gone) :
    (table.retain live).get k = .gone := by
  rw [get] at h
  rw [get, retain, List.getElem?_mapIdx]
  cases hcell : table.table[k]? with
  | none => rfl
  | some cell =>
      rw [hcell, Option.getD_some] at h
      simp [h]

/-! ### Duplicates -/

theorem scheme?_append_left {cells : List Cell} (h : k < table.next) :
    (Cells.mk (table.table ++ cells)).scheme? k = table.scheme? k := by
  rw [scheme?, scheme?, get_append_left h]

theorem duplicate_cons (table : Cells) (k : CellId) (ks : List CellId) :
    table.duplicate (k :: ks) =
      ((k, table.next) :: ((table.make (table.scheme? k)).2.duplicate ks).1,
        ((table.make (table.scheme? k)).2.duplicate ks).2) := rfl

/-- The duplicates of cells stand behind the cells of the table, in order. -/
theorem duplicate_eq {ks : List CellId} (h : ∀ k ∈ ks, k < table.next) :
    table.duplicate ks = (ks.zip (List.range' table.next ks.length),
      ⟨table.table ++ ks.map (fun k => Cell.ofScheme? (table.scheme? k))⟩) := by
  induction ks generalizing table with
  | nil => simp [duplicate]
  | cons k ks ih =>
      have hnext : (table.make (table.scheme? k)).2.next = table.next + 1 := by simp [make, next]
      have hks : ∀ j ∈ ks, j < table.next := fun j hj => h j (List.mem_cons_of_mem k hj)
      have hcontents : ks.map (fun j => Cell.ofScheme? ((table.make (table.scheme? k)).2.scheme? j)) =
          ks.map (fun j => Cell.ofScheme? (table.scheme? j)) := by
        refine List.map_congr_left (fun j hj => ?_)
        rw [make, scheme?_append_left (hks j hj)]
      rw [duplicate_cons, ih (fun j hj => by rw [hnext]; exact Nat.lt_succ_of_lt (hks j hj)), hnext,
        hcontents, List.length_cons, List.range'_succ]
      simp [make]

theorem lookup_zip_range' (ks : List ℕ) (first k : ℕ) :
    (ks.zip (List.range' first ks.length)).lookup k =
      if k ∈ ks then some (first + ks.idxOf k) else none := by
  induction ks generalizing first with
  | nil => rfl
  | cons j ks ih =>
      rw [List.length_cons, List.range'_succ, List.zip_cons_cons, List.lookup_cons, ih]
      by_cases hk : k = j
      · simp [hk]
      · have hidx : (j :: ks).idxOf k = ks.idxOf k + 1 := List.idxOf_cons_ne ks (Ne.symm hk)
        have hsum : first + 1 + ks.idxOf k = first + (ks.idxOf k + 1) := by omega
        simp only [beq_eq_false_iff_ne.mpr hk, hidx, hsum, List.mem_cons, hk, false_or]

end Cells

namespace Plan

open Cells

variable {p q c : Plan} {table after : Cells} {k : CellId}

/-! ### The cells of a plan -/

theorem mem_cells : k ∈ p.cells ↔ p.cell? = some k ∨ ∃ q ∈ p.inputs, k ∈ q.cells := by
  simp only [cells, List.mem_eraseDups]
  exact mem_filterMap_preorder

/-- No fixpoint of the plan holds a cell that is gone. -/
def Held (p : Plan) (table : Cells) : Prop := ∀ k ∈ p.cells, table.get k ≠ .gone

/-- The plan's fixpoints hold cells of the table, and its states read cells that were made. -/
structure Placed (p : Plan) (table : Cells) : Prop where
  held : p.Held table
  known : ∀ k ∈ p.stateCells, k < table.next

/-- Every state of the plan that is attached reads a fixpoint of the plan. -/
def Closed (p : Plan) (table : Cells) : Prop :=
  ∀ k ∈ p.stateCells, table.get k ≠ .gone → k ∈ p.cells

theorem Held.lt_next (h : p.Held table) (hk : k ∈ p.cells) : k < table.next :=
  lt_next_of_get_ne_gone (h k hk)

theorem mem_filterMap_of_at? {α : Type} {f : Plan → Option α} {path : List ℕ} {a : α}
    (hq : p.at? path = some q) (ha : a ∈ q.preorder.filterMap f) : a ∈ p.preorder.filterMap f := by
  induction path generalizing p with
  | nil =>
      obtain rfl := Option.some.inj hq
      exact ha
  | cons i path ih =>
      obtain ⟨input, hinput, hq⟩ := Option.bind_eq_some_iff.mp hq
      exact mem_filterMap_preorder.mpr (Or.inr ⟨input, List.mem_of_getElem? hinput, ih hq⟩)

theorem mem_cells_of_at? {path : List ℕ} (hq : p.at? path = some q) (hk : k ∈ q.cells) :
    k ∈ p.cells := by
  simp only [cells, List.mem_eraseDups] at hk ⊢
  exact mem_filterMap_of_at? hq hk

theorem withNotes_notes (p : Plan) : p.withNotes p.notes = p := by
  cases p <;> rfl

theorem inputs_withNotes (notes : Notes) (p : Plan) : (p.withNotes notes).inputs = p.inputs := by
  cases p <;> rfl

theorem cell?_withNotes (notes : Notes) (p : Plan) : (p.withNotes notes).cell? = p.cell? := by
  cases p with
  | leaf _ op => cases op <;> rfl
  | unary _ op input => cases op <;> rfl
  | _ => rfl

theorem stateCell?_withNotes (notes : Notes) (p : Plan) :
    (p.withNotes notes).stateCell? = p.stateCell? := by
  cases p with
  | leaf _ op => cases op <;> rfl
  | _ => rfl

theorem cell?_withInputs (p : Plan) (qs : List Plan) : (p.withInputs qs).cell? = p.cell? := by
  unfold withInputs
  split
  · rename_i notes op _ input
    cases op <;> rfl
  · rfl
  · rfl
  · rfl

theorem cell?_relink (moves : List (CellId × CellId)) (p : Plan) :
    (p.relink moves).cell? = p.cell?.map (renamed moves) := by
  rw [relink_eq, cell?_withInputs]
  cases p with
  | leaf notes op =>
      cases op with
      | state name cell => cases cell <;> rfl
      | _ => rfl
  | unary notes op input => cases op <;> rfl
  | _ => rfl

theorem at?_relink (moves : List (CellId × CellId)) (path : List ℕ) (p : Plan) :
    (p.relink moves).at? path = (p.at? path).map (relink moves) := by
  induction path generalizing p with
  | nil => rfl
  | cons i path ih =>
      rw [at?, at?, inputs_relink, List.getElem?_map, Option.bind_map, Option.map_bind]
      exact congrArg _ (funext ih)

theorem at?_withNotes (notes : Notes) (path : List ℕ) (p : Plan) :
    ∃ f : Plan → Notes,
      (p.withNotes notes).at? path = (p.at? path).map (fun q => q.withNotes (f q)) := by
  cases path with
  | nil => exact ⟨fun _ => notes, rfl⟩
  | cons i path =>
      refine ⟨Plan.notes, ?_⟩
      simp [at?, inputs_withNotes, withNotes_notes]

theorem mem_filterMap_withNotes {α : Type} {f : Plan → Option α} {notes : Notes} {a : α}
    (hf : f (p.withNotes notes) = f p) :
    a ∈ (p.withNotes notes).preorder.filterMap f ↔ a ∈ p.preorder.filterMap f := by
  rw [mem_filterMap_preorder, mem_filterMap_preorder, hf, inputs_withNotes]

/-! ### Copies -/

/-- The number that a cell gets in a copy: the cells of the plan's fixpoints are numbered on, and
other cells keep their numbers. -/
def copyCell (p : Plan) (table : Cells) (k : CellId) : CellId :=
  if k ∈ p.cells then table.next + p.cells.idxOf k else k

/-- A node of a plan and the node of the copy at the same place. -/
structure Renamed (ρ : CellId → CellId) (table after : Cells) (q d : Plan) : Prop where
  cell : d.cell? = q.cell?.map ρ
  stateCell : d.stateCell? = q.stateCell?.map ρ
  scheme : d.scheme after = q.scheme table

/-- `c` is `p` with the cells of its fixpoints renamed to new ones that hold the same, and no cell of
the table has changed. -/
structure Copied (ρ : CellId → CellId) (p : Plan) (table : Cells) (c : Plan) (after : Cells) :
    Prop where
  injective : ∀ j ∈ p.cells, ∀ k ∈ p.cells, ρ j = ρ k → j = k
  fresh : ∀ k ∈ p.cells, table.next ≤ ρ k ∧ ρ k < after.next
  others : ∀ k, k ∉ p.cells → ρ k = k
  content : ∀ k ∈ p.cells, after.get (ρ k) = table.get k
  untouched : ∀ k < table.next, after.get k = table.get k
  nodes : ∀ path, Option.Rel (Renamed ρ table after) (p.at? path) (c.at? path)
  bare : c.bare = p.bare

section Copy

variable (hp : p.Held table)

include hp

theorem copy_table : (p.copy table).2.table =
    table.table ++ p.cells.map (fun k => Cell.ofScheme? (table.scheme? k)) := by
  rw [copy, duplicate_eq (fun k hk => hp.lt_next hk)]

theorem renamed_duplicate : renamed (table.duplicate p.cells).1 = p.copyCell table := by
  funext k
  rw [renamed, duplicate_eq (fun k hk => hp.lt_next hk), lookup_zip_range', copyCell]
  split_ifs <;> rfl

theorem get_copy_of_lt (hk : k < table.next) : (p.copy table).2.get k = table.get k := by
  rw [Cells.get, copy_table hp]
  exact get_append_left hk

theorem get_copy_copyCell (hk : k ∈ p.cells) :
    (p.copy table).2.get (p.copyCell table k) = table.get k := by
  have hidx := List.idxOf_lt_length_iff.mpr hk
  rw [copyCell, if_pos hk, next, Cells.get, copy_table hp,
    List.getElem?_append_right (Nat.le_add_right _ _), Nat.add_sub_cancel_left, List.getElem?_map,
    List.getElem?_eq_getElem hidx, List.getElem_idxOf, Option.map_some, Option.getD_some]
  exact ofScheme?_scheme? (hp k hk)

theorem copyCell_lt_next (hk : k ∈ p.cells) : p.copyCell table k < (p.copy table).2.next := by
  have hidx := List.idxOf_lt_length_iff.mpr hk
  rw [copyCell, if_pos hk, next, next, copy_table hp, List.length_append, List.length_map]
  exact Nat.add_lt_add_left hidx _

end Copy

theorem copyCell_injective {j : CellId} (hj : j ∈ p.cells) (hk : k ∈ p.cells)
    (h : p.copyCell table j = p.copyCell table k) : j = k := by
  rw [copyCell, copyCell, if_pos hj, if_pos hk] at h
  exact (List.idxOf_inj hj).mp (Nat.add_left_cancel h)

/-- The node of a copy at the end of a path, up to its notes. -/
theorem at?_copy (p : Plan) (table : Cells) (path : List ℕ) :
    ∃ f : Plan → Notes, (p.copy table).1.at? path = (p.at? path).map
      (fun q => (q.relink (table.duplicate p.cells).1).withNotes (f q)) := by
  obtain ⟨f, hf⟩ := at?_withNotes
    { (p.relink (table.duplicate p.cells).1).notes with bound := none, label := none } path
    (p.relink (table.duplicate p.cells).1)
  refine ⟨fun q => f (q.relink (table.duplicate p.cells).1), ?_⟩
  rw [copy, hf, at?_relink, Option.map_map]
  rfl

/-- The new cells hold what the old ones held, for the states of the plan too. -/
theorem get_copyCell_of_stateCell (hp : p.Placed table) (hk : k ∈ p.stateCells) :
    (p.copy table).2.get (p.copyCell table k) = table.get k := by
  by_cases hcell : k ∈ p.cells
  · exact get_copy_copyCell hp.held hcell
  · rw [copyCell, if_neg hcell]
    exact get_copy_of_lt hp.held (hp.known k hk)

/-- A node of a plan and the node of the copy at the same place. -/
theorem renamed_copy (hp : p.Placed table) (path : List ℕ) :
    Option.Rel (Renamed (p.copyCell table) table (p.copy table).2) (p.at? path)
      ((p.copy table).1.at? path) := by
  obtain ⟨f, hf⟩ := at?_copy p table path
  rw [hf]
  cases hq : p.at? path with
  | none => exact .none
  | some q =>
      refine .some ⟨?_, ?_, ?_⟩
      · rw [cell?_withNotes, cell?_relink, renamed_duplicate hp.held]
      · rw [stateCell?_withNotes, stateCell?_relink, renamed_duplicate hp.held]
      · rw [scheme_withNotes]
        refine scheme_relink (fun k hk => ?_)
        rw [renamed_duplicate hp.held]
        exact get_copyCell_of_stateCell hp (mem_filterMap_of_at? hq hk)

/-- The cells of one kind in a copy are those of the plan, renamed. -/
theorem mem_filterMap_copy {f : Plan → Option CellId} (hp : p.Held table)
    (hnotes : ∀ notes q, f (withNotes notes q) = f q)
    (hrelink : ∀ moves q, f (relink moves q) = (f q).map (renamed moves)) :
    k ∈ (p.copy table).1.preorder.filterMap f ↔
      ∃ j ∈ p.preorder.filterMap f, p.copyCell table j = k := by
  unfold copy
  dsimp only
  rw [mem_filterMap_withNotes (hnotes _ _), preorder_map (inputs_relink _), List.filterMap_map,
    List.mem_filterMap]
  simp only [Function.comp_apply, hrelink, renamed_duplicate hp, Option.map_eq_some_iff,
    List.mem_filterMap]
  constructor
  · rintro ⟨q, hq, j, hj, rfl⟩
    exact ⟨j, ⟨q, hq, hj⟩, rfl⟩
  · rintro ⟨j, ⟨q, hq, hj⟩, rfl⟩
    exact ⟨q, hq, j, hj, rfl⟩

theorem mem_cells_copy (hp : p.Held table) :
    k ∈ (p.copy table).1.cells ↔ ∃ j ∈ p.cells, p.copyCell table j = k := by
  simp only [cells, List.mem_eraseDups]
  exact mem_filterMap_copy hp cell?_withNotes cell?_relink

theorem mem_stateCells_copy (hp : p.Held table) :
    k ∈ (p.copy table).1.stateCells ↔ ∃ j ∈ p.stateCells, p.copyCell table j = k :=
  mem_filterMap_copy hp stateCell?_withNotes stateCell?_relink

/-- **A copy is the plan with its cells renamed.** -/
theorem copied_copy (hp : p.Placed table) :
    Copied (p.copyCell table) p table (p.copy table).1 (p.copy table).2 where
  injective _ hj _ hk := copyCell_injective hj hk
  fresh k hk := ⟨by rw [copyCell, if_pos hk]; exact Nat.le_add_right _ _, copyCell_lt_next hp.held hk⟩
  others k hk := if_neg hk
  content _ hk := get_copy_copyCell hp.held hk
  untouched _ hk := get_copy_of_lt hp.held hk
  nodes := renamed_copy hp
  bare := bare_copy p table

/-! ### Giving fixpoints bodies -/

variable {body f : Plan} {cell : CellId} {kept : List CellId} {s t : Plan × Cells}

/-- The cell of a fixpoint stays with it, and nothing but that cell changes. -/
theorem bindBody_eq_ok (hcell : p.cell? = some cell)
    (h : (p.bindBody body table).value = .ok (q, after)) :
    q = unary p.notes (.fixpoint cell) body ∧ ∃ content, after = table.publish cell content := by
  unfold bindBody at h
  rw [hcell] at h
  dsimp only at h
  split at h
  · rename_i scheme _
    obtain ⟨rfl, rfl⟩ := Prod.mk.inj (Except.ok.inj h)
    exact ⟨rfl, some scheme, rfl⟩
  · obtain ⟨rfl, rfl⟩ := Prod.mk.inj (Except.ok.inj h)
    exact ⟨rfl, none, rfl⟩

/-- A cell of a plan with one node replaced is a cell of the plan or of the new node. -/
theorem mem_cells_modifyAt {path : List ℕ} (h : k ∈ (p.modifyAt (fun _ => q) path).cells) :
    k ∈ p.cells ∨ k ∈ q.cells := by
  induction path generalizing p with
  | nil => exact Or.inr h
  | cons i path ih =>
      rw [modifyAt, mem_cells, cell?_withInputs, inputs_withInputs (List.length_modify ..)] at h
      rcases h with h | ⟨r, hr, hk⟩
      · exact Or.inl (mem_cells.mpr (Or.inl h))
      · obtain ⟨j, hj⟩ := List.mem_iff_getElem?.mp hr
        rw [List.getElem?_modify] at hj
        obtain ⟨input, hinput, rfl⟩ := Option.map_eq_some_iff.mp hj
        have hmem := List.mem_of_getElem? hinput
        split_ifs at hk with hij
        · rcases ih hk with hk | hk
          · exact Or.inl (mem_cells.mpr (Or.inr ⟨input, hmem, hk⟩))
          · exact Or.inr hk
        · exact Or.inl (mem_cells.mpr (Or.inr ⟨input, hmem, hk⟩))

/-- A plan is given a body at one of its fixpoints while fixpoints outside it hold the cells `kept`,
its own one not among them.  Behind the call those cells and the cells of the plan are held; others
may be let go.  Between calls new cells may be made. -/
inductive Rebinding (kept : List CellId) : Plan × Cells → Plan × Cells → Prop
  | bind {p f q body : Plan} {table after : Cells} {path : List ℕ} {cell : CellId}
      {live : List CellId} (node : p.at? path = some f) (owns : f.cell? = some cell)
      (apart : cell ∉ kept) (held : body.Held table)
      (bound : (f.bindBody body table).value = .ok (q, after)) (outside : kept ⊆ live)
      (inside : (p.modifyAt (fun _ => q) path).cells ⊆ live) :
      Rebinding kept (p, table) (p.modifyAt (fun _ => q) path, after.retain live)
  | make (p : Plan) (table : Cells) (content : Option Scheme) :
      Rebinding kept (p, table) (p, (table.make content).2)

/-- The cell was made, and it is held outside the plan or no fixpoint holds it any more. -/
def Steady (kept : List CellId) (table : Cells) (k : CellId) : Prop :=
  k < table.next ∧ (k ∈ kept ∨ table.get k = .gone)

/-- What a call leaves: the plan's cells are held, and steady cells hold what they held. -/
structure Leaves (kept : List CellId) (s t : Plan × Cells) : Prop where
  held : t.1.Held t.2
  next_le : s.2.next ≤ t.2.next
  steady : ∀ k, Steady kept s.2 k → t.2.get k = s.2.get k

theorem Rebinding.leaves (h : Rebinding kept s t) (hs : s.1.Held s.2) : Leaves kept s t := by
  cases h with
  | @bind p f q body table after path cell live node owns apart held bound outside inside =>
      obtain ⟨rfl, content, rfl⟩ := bindBody_eq_ok owns bound
      have hcell : cell ∈ p.cells := mem_cells_of_at? node (mem_cells.mpr (Or.inl owns))
      refine ⟨fun k hk => ?_, by simp, fun k ⟨_, hk⟩ => ?_⟩
      · -- What the plan holds behind the call it held before, or the new body brought it along.
        have hold : k ≠ cell → table.get k ≠ .gone := by
          intro hne
          rcases mem_cells_modifyAt hk with hplan | hnode
          · exact hs k hplan
          · rcases mem_cells.mp hnode with hroot | ⟨input, hinput, hbody⟩
            · exact absurd (Option.some.inj hroot).symm hne
            · obtain rfl := List.mem_singleton.mp hinput
              exact held k hbody
        rw [get_retain_of_mem (inside hk)]
        by_cases hne : k = cell
        · rw [hne, get_publish_self (hs.lt_next hcell)]
          exact Cell.ofScheme?_ne_gone content
        · rw [get_publish_of_ne hne]
          exact hold hne
      · rcases hk with hk | hgone
        · have hne : k ≠ cell := fun e => apart (e ▸ hk)
          rw [get_retain_of_mem (outside hk), get_publish_of_ne hne]
        · -- A cell that is gone is not the one that is written, which the plan holds.
          have hne : k ≠ cell := fun e => hs cell hcell (e ▸ hgone)
          rw [hgone]
          exact get_retain_of_gone live (by rw [get_publish_of_ne hne, hgone])
  | make p table content =>
      refine ⟨fun k hk => ?_, ?_, fun k ⟨hk, _⟩ => get_append_left hk⟩
      · have hget : (table.make content).2.get k = table.get k := get_append_left (hs.lt_next hk)
        rw [hget]
        exact hs k hk
      · simp [Cells.make, next]

theorem Rebinding.run (h : ReflTransGen (Rebinding kept) s t) (hs : s.1.Held s.2) :
    Leaves kept s t := by
  induction h with
  | refl => exact ⟨hs, Nat.le_refl _, fun _ _ => rfl⟩
  | tail _ hstep ih =>
      have hlast := hstep.leaves ih.held
      refine ⟨hlast.held, Nat.le_trans ih.next_le hlast.next_le, fun k hk => ?_⟩
      have hk' : Steady kept _ k :=
        ⟨Nat.lt_of_lt_of_le hk.1 ih.next_le, hk.2.imp_right (ih.steady k hk).trans⟩
      rw [hlast.steady k hk', ih.steady k hk]

/-- Calls leave the scheme of a plan whose states read steady cells. -/
theorem Leaves.scheme (h : Leaves kept s t) (hq : ∀ k ∈ q.stateCells, Steady kept s.2 k) :
    q.scheme t.2 = q.scheme s.2 :=
  scheme_congr (fun k hk => h.steady k (hq k hk))

/-! ### A plan beside its copy -/

section Beside

variable (hp : p.Placed table)

include hp

theorem held_copy : (p.copy table).1.Held (p.copy table).2 := by
  intro k hk
  obtain ⟨j, hj, rfl⟩ := (mem_cells_copy hp.held).mp hk
  rw [get_copy_copyCell hp.held hj]
  exact hp.held j hj

theorem held_beside_copy : p.Held (p.copy table).2 := by
  intro k hk
  rw [get_copy_of_lt hp.held (hp.held.lt_next hk)]
  exact hp.held k hk

theorem next_le_copy : table.next ≤ (p.copy table).2.next := by
  simp [next, copy_table hp.held]

theorem steady_beside_copy (hclosed : p.Closed table) (hkept : p.cells ⊆ kept)
    (hk : k ∈ p.stateCells) : Steady kept (p.copy table).2 k := by
  refine ⟨Nat.lt_of_lt_of_le (hp.known k hk) (next_le_copy hp), ?_⟩
  by_cases hgone : table.get k = .gone
  · exact Or.inr ((get_copy_of_lt hp.held (hp.known k hk)).trans hgone)
  · exact Or.inl (hkept (hclosed k hk hgone))

theorem steady_copy (hclosed : p.Closed table) (hkept : (p.copy table).1.cells ⊆ kept)
    (hk : k ∈ (p.copy table).1.stateCells) : Steady kept (p.copy table).2 k := by
  obtain ⟨j, hj, rfl⟩ := (mem_stateCells_copy hp.held).mp hk
  by_cases hcell : j ∈ p.cells
  · exact ⟨copyCell_lt_next hp.held hcell,
      Or.inl (hkept ((mem_cells_copy hp.held).mpr ⟨j, hcell, rfl⟩))⟩
  · have hgone : table.get j = .gone := by
      by_contra h
      exact hcell (hclosed j hj h)
    rw [copyCell, if_neg hcell]
    exact ⟨Nat.lt_of_lt_of_le (hp.known j hj) (next_le_copy hp),
      Or.inr ((get_copy_of_lt hp.held (hp.known j hj)).trans hgone)⟩

end Beside

/-- **A copy isolates the bindings of fixpoints.** -/
theorem copy_isolates (hp : p.Placed table) :
    (∃ ρ, Copied ρ p table (p.copy table).1 (p.copy table).2) ∧
      ((p.copy table).1.same p = true ↔ ∀ x ∈ p.floats, x.isNaN = false) ∧
      (∀ k ∈ (p.copy table).1.cells, table.next ≤ k) ∧
      (p.Closed table → ∀ kept,
        (p.cells ⊆ kept → ∀ t, ReflTransGen (Rebinding kept) (p.copy table) t →
          (∀ path q, p.at? path = some q → q.scheme t.2 = q.scheme table) ∧
          ∀ name cell, (∀ k ∈ cell, Steady kept (p.copy table).2 k) →
            t.2.stateScheme name cell = (p.copy table).2.stateScheme name cell) ∧
        ((p.copy table).1.cells ⊆ kept →
          ∀ t, ReflTransGen (Rebinding kept) (p, (p.copy table).2) t →
            ∀ path d, (p.copy table).1.at? path = some d →
              d.scheme t.2 = d.scheme (p.copy table).2)) := by
  refine ⟨⟨_, copied_copy hp⟩, ?_, fun k hk => ?_, fun hclosed kept => ⟨?_, ?_⟩⟩
  · rw [same_congr_left (bare_copy p table), same_self_iff]
  · obtain ⟨j, hj, rfl⟩ := (mem_cells_copy hp.held).mp hk
    exact ((copied_copy hp).fresh j hj).1
  · intro hkept t hrun
    have hleaves := Rebinding.run hrun (held_copy hp)
    refine ⟨fun path q hq => ?_, fun name cell hcell => ?_⟩
    · have hmem : ∀ k ∈ q.stateCells, k ∈ p.stateCells := fun k hk => mem_filterMap_of_at? hq hk
      rw [hleaves.scheme (fun k hk => steady_beside_copy hp hclosed hkept (hmem k hk))]
      exact scheme_congr (fun k hk => get_copy_of_lt hp.held (hp.known k (hmem k hk)))
    · cases cell with
      | none => rfl
      | some k => exact stateScheme_congr name (hleaves.steady k (hcell k rfl))
  · intro hkept t hrun path d hd
    have hleaves := Rebinding.run hrun (held_beside_copy hp)
    exact hleaves.scheme (fun k hk => steady_copy hp hclosed hkept (mem_filterMap_of_at? hd hk))

/-- A fixpoint within another one, which stands twice; states read both of them from within and from
beside them, and one reads a cell that is gone. -/
def loops : Plan :=
  nary {} .sequence
    [unary {} (.fixpoint 0)
        (binary {} .union (leaf {} (.state "s" (some 0))) (leaf {} (.fixpoint 1))),
      leaf {} (.fixpoint 0), leaf {} (.state "s" (some 0)), leaf {} (.state "t" (some 1)),
      leaf {} (.state "u" (some 2))]

/-- The cells of `loops`. -/
def loopCells : Cells := ⟨[.bound .empty, .unbound, .gone]⟩

theorem cells_loops : loops.cells = [0, 1] := by
  simp only [cells, preorder, preorderFrom, loops, inputs, List.cons_append, List.nil_append]
  rfl

theorem stateCells_loops : loops.stateCells = [0, 0, 1, 2] := by
  simp only [stateCells, preorder, preorderFrom, loops, inputs, List.cons_append, List.nil_append]
  rfl

theorem placed_loops : loops.Placed loopCells := by
  refine ⟨?_, ?_⟩
  · rw [Held, cells_loops]
    decide
  · rw [stateCells_loops]
    decide

theorem closed_loops : loops.Closed loopCells := by
  rw [Closed, stateCells_loops, cells_loops]
  decide

/-- A relation without rows that has one column. -/
def oneColumn : Plan := leaf {} (.emptyRelation ⟨[.named "a" .int]⟩)

theorem copy_loops : loops.copy loopCells =
    (nary {} .sequence
      [unary {} (.fixpoint 3)
          (binary {} .union (leaf {} (.state "s" (some 3))) (leaf {} (.fixpoint 4))),
        leaf {} (.fixpoint 3), leaf {} (.state "s" (some 3)), leaf {} (.state "t" (some 4)),
        leaf {} (.state "u" (some 2))],
      ⟨[.bound .empty, .unbound, .gone, .bound .empty, .unbound]⟩) := by
  rw [copy, cells_loops]
  rfl

/-- The outer fixpoint of the copy gets another body, with which the inner one goes. -/
theorem rebinding_loops : ∃ t, Rebinding [0, 1] (loops.copy loopCells) t ∧
    ∃ d, t.1.at? [2] = some d ∧ d.scheme t.2 = oneColumn.scheme t.2 := by
  have hbody : oneColumn.cells = [] := by
    simp only [cells, preorder, preorderFrom, oneColumn, inputs, List.nil_append]
    rfl
  rw [copy_loops]
  refine ⟨_, @Rebinding.bind [0, 1] _ _ _ oneColumn _ _ [0] 3 [0, 1, 3] rfl rfl (by decide) ?_ rfl
    (by decide) ?_, _, rfl, rfl⟩
  · rw [Held, hbody]
    exact fun k hk => absurd hk List.not_mem_nil
  · simp only [cells, modifyAt, withInputs, inputs, List.modify_zero_cons, preorder, preorderFrom,
      oneColumn, List.cons_append, List.nil_append]
    decide

theorem copy_isolates_loops : loops.Placed loopCells ∧ loops.Closed loopCells ∧
    ∃ t, Rebinding [0, 1] (loops.copy loopCells) t ∧
      (∃ d, t.1.at? [2] = some d ∧ d.scheme t.2 = oneColumn.scheme t.2) ∧
      ∀ path q, loops.at? path = some q → q.scheme t.2 = q.scheme loopCells := by
  obtain ⟨t, hstep, hchanged⟩ := rebinding_loops
  obtain ⟨_, _, _, hkeep⟩ := copy_isolates placed_loops
  have hkept : loops.cells ⊆ [0, 1] := by rw [cells_loops]; exact List.Subset.refl _
  exact ⟨placed_loops, closed_loops, t, hstep, hchanged,
    ((hkeep closed_loops [0, 1]).1 hkept t (.single hstep)).1⟩

/-- A fixpoint without a body. -/
def hole : Plan := leaf {} (.fixpoint 0)

theorem cells_hole : hole.cells = [0] := by
  simp only [cells, preorder, preorderFrom, hole, inputs, List.nil_append]
  rfl

/-- A copy of a plan with a NaN is not equal to it, and calls on fixpoints of a copy do reach states
outside it: one that reads the copy, one that reads a plan put into the copy, and one that reads a
fixpoint that was handed over to the copy and goes with its next body. -/
theorem copy_reaches_states :
    ((unary {} (.select (.literal (.float .nan))) (leaf {} .singleton)).copy .empty).1.same
        (unary {} (.select (.literal (.float .nan))) (leaf {} .singleton)) = false ∧
      ∃ c after, hole.copy ⟨[.unbound, .bound .empty]⟩ = (c, after) ∧
        (∃ c₁ t₁, (c.bindBody oneColumn after).value = .ok (c₁, t₁) ∧
          t₁.stateScheme "s" (some 2) ≠ after.stateScheme "s" (some 2)) ∧
        (∃ c₁ t₁ f g t₂, (c.bindBody hole after).value = .ok (c₁, t₁) ∧ c₁.at? [0] = some f ∧
          (f.bindBody oneColumn t₁).value = .ok (g, t₂) ∧
          t₂.stateScheme "s" (some 0) ≠ after.stateScheme "s" (some 0)) ∧
        ∃ c₁ t₁ c₂ t₂, (c.bindBody (leaf {} (.fixpoint 1)) after).value = .ok (c₁, t₁) ∧
          (c₁.bindBody oneColumn t₁).value = .ok (c₂, t₂) ∧
          (t₂.retain (hole.cells ++ c₂.cells)).stateScheme "s" (some 1) ≠
            after.stateScheme "s" (some 1) := by
  have hcopy : hole.copy ⟨[.unbound, .bound .empty]⟩ =
      (leaf {} (.fixpoint 2), ⟨[.unbound, .bound .empty, .unbound]⟩) := by
    rw [copy, cells_hole]
    rfl
  have hcells : (unary {} (.fixpoint 2) oneColumn).cells = [2] := by
    simp only [cells, preorder, preorderFrom, oneColumn, inputs, List.cons_append, List.nil_append]
    rfl
  refine ⟨?_, _, _, hcopy, ⟨_, _, rfl, ?_⟩, ⟨_, _, _, _, _, rfl, rfl, rfl, ?_⟩,
    ⟨_, _, unary {} (.fixpoint 2) oneColumn, _, rfl, rfl, ?_⟩⟩
  · rw [same_congr_left (bare_copy _ _)]
    decide
  · intro h
    cases h
  · intro h
    cases h
  · rw [cells_hole, hcells]
    intro h
    cases h

end Plan

end Planner
