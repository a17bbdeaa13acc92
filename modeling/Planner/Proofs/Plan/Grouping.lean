import Mathlib.Data.List.Forall2
import Planner.Json.Printer
import Planner.Json.Reader
import Planner.Proofs.Expr.Coding
import Planner.Proofs.Expr.Typing

/-! # The columns of a grouping

The output of a grouping is a stable rearrangement of its list: every position once, what is grouped by
before the aggregates, each of the two in the order of the list (`Arranges`).  A column is copied from
the input or computed (`Outputs`), and a computed one is named after its kind and its position in the
list, which is not that in the output.  The digits of such a name are those of the position
(`digits_kindName_append`), so no two positions share a name.

Main statement: `scheme_groupBy_outputs`.  It also says that the list is read back with the same split.
JSON can hold it if the constants in it are finite (`isValue_columns_iff`). -/

namespace Planner

open Planner.Data

/-! ### The order of the output -/

/-- One expression comes before another: it is grouped by and the other one is an aggregate, or both
are of one sort and it has the smaller position. -/
def Precedes (a b : ℕ × Expr) : Prop :=
  (a.2.isAggregate = false ∧ b.2.isAggregate = true) ∨
    (a.2.isAggregate = b.2.isAggregate ∧ a.1 < b.1)

/-- An order for the output of a grouping. -/
structure Arranges (columns : List Expr) (order : List (ℕ × Expr)) : Prop where
  /-- Every position is there once. -/
  positions : (order.map Prod.fst).Perm (List.range columns.length)
  /-- A position comes with the expression that stands there. -/
  entries : ∀ o ∈ order, columns[o.1]? = some o.2
  sorted : order.Pairwise Precedes

section Order

variable {columns : List Expr}

theorem map_fst_indexed (columns : List Expr) :
    (indexed columns).map Prod.fst = List.range columns.length :=
  List.map_fst_zip (by simp)

theorem length_indexed (columns : List Expr) : (indexed columns).length = columns.length := by
  simp [indexed]

theorem getElem?_of_mem_indexed {i : ℕ} {e : Expr} (h : (i, e) ∈ indexed columns) :
    columns[i]? = some e := by
  obtain ⟨k, hk⟩ := List.mem_iff_getElem?.mp h
  obtain ⟨hi, he⟩ := List.getElem?_zip_eq_some.mp hk
  obtain ⟨_, rfl⟩ := List.getElem?_eq_some_iff.mp hi
  simpa using he

theorem pairwise_indexed (columns : List Expr) :
    (indexed columns).Pairwise (fun a b => a.1 < b.1) := by
  rw [← List.pairwise_map (f := Prod.fst) (R := (· < ·)), map_fst_indexed]
  exact List.pairwise_lt_range

theorem outputOrder_perm_indexed (columns : List Expr) :
    (outputOrder columns).Perm (indexed columns) := by
  have h := List.filter_append_perm (fun c : ℕ × Expr => !c.2.isAggregate) (indexed columns)
  simpa [outputOrder, grouping, aggregates] using h

/-- What is grouped by comes first, and nothing else changes places. -/
theorem pairwise_outputOrder (columns : List Expr) : (outputOrder columns).Pairwise Precedes := by
  have hsorted (p : ℕ × Expr → Bool) := (pairwise_indexed columns).filter p
  refine List.pairwise_append.mpr ⟨?_, ?_, ?_⟩
  · refine (hsorted _).imp_of_mem (fun ha hb hlt => Or.inr ⟨?_, hlt⟩)
    rw [grouping, List.mem_filter, Bool.not_eq_true'] at ha hb
    rw [ha.2, hb.2]
  · refine (hsorted _).imp_of_mem (fun ha hb hlt => Or.inr ⟨?_, hlt⟩)
    rw [aggregates, List.mem_filter] at ha hb
    rw [ha.2, hb.2]
  · intro a ha b hb
    rw [grouping, List.mem_filter, Bool.not_eq_true'] at ha
    rw [aggregates, List.mem_filter] at hb
    exact Or.inl ⟨ha.2, hb.2⟩

/-- **The output is a stable rearrangement of the list.** -/
theorem arranges_outputOrder (columns : List Expr) : Arranges columns (outputOrder columns) where
  positions := by
    rw [← map_fst_indexed]
    exact (outputOrder_perm_indexed columns).map Prod.fst
  entries _ ho := getElem?_of_mem_indexed ((outputOrder_perm_indexed columns).mem_iff.mp ho)
  sorted := pairwise_outputOrder columns

end Order

/-! ### The columns of the output -/

/-- The column of an expression at a position: the one it copies from the input, or a new one with the
type of the expression. -/
inductive Outputs (input : Scheme) : ℕ × Expr → Column → Prop
  | copied {i : ℕ} {ref : ColumnRef} {c : Column} (h : input.resolve ref = .ok c) :
      Outputs input (i, .attr ref) c
  | computed {i : ℕ} {e : Expr} {type : ColumnType} (hnew : e.ref? = none)
      (h : e.typeOf input = .ok type) :
      Outputs input (i, e) (.named (e.kindName ++ toString i) type)

theorem outputs_of_groupColumn {input : Scheme} {o : ℕ × Expr} {c : Column}
    (h : groupColumn input o = .ok c) : Outputs input o c := by
  obtain ⟨i, e⟩ := o
  unfold groupColumn at h
  split at h
  · rename_i ref href
    cases e with
    | attr r =>
        obtain rfl := Option.some.inj href
        exact .copied (eq_ok_of_liftScheme h)
    | _ => cases href
  · rename_i hnew
    obtain ⟨type, htype, h⟩ := exists_of_bind_eq_ok h
    obtain rfl := Except.ok.inj h
    exact .computed hnew (eq_ok_of_liftScheme htype)

theorem forall₂_of_mapM {α β : Type} {f : α → Except PlanError β} {l : List α} {bs : List β}
    (h : l.mapM f = .ok bs) : List.Forall₂ (fun a b => f a = .ok b) l bs := by
  induction l generalizing bs with
  | nil =>
      obtain rfl := Except.ok.inj h
      exact List.Forall₂.nil
  | cons a rest ih =>
      rw [List.mapM_cons] at h
      obtain ⟨b, hb, h⟩ := exists_of_bind_eq_ok h
      obtain ⟨bs, hbs, h⟩ := exists_of_bind_eq_ok h
      obtain rfl := Except.ok.inj h
      exact List.Forall₂.cons hb (ih hbs)

theorem Plan.forall₂_outputs {cells : Cells} {notes : Notes} {columns : List Expr} {input : Plan}
    {s : Scheme} (h : (unary notes (.groupBy columns) input).scheme cells = .ok s) :
    ∃ t, input.scheme cells = .ok t ∧ List.Forall₂ (Outputs t) (outputOrder columns) s.columns := by
  obtain ⟨_, _, h⟩ := exists_of_bind_eq_ok h
  obtain ⟨t, ht, h⟩ := exists_of_bind_eq_ok h
  obtain ⟨out, hout, rfl⟩ := exists_of_map_eq_ok h
  exact ⟨t, ht, (forall₂_of_mapM hout).imp (fun _ _ => outputs_of_groupColumn)⟩

/-! ### The names of computed columns -/

theorem BinaryOp.digits_kindName (op : BinaryOp) : op.kindName.toList.filter Char.isDigit = [] := by
  cases op <;> decide

theorem AggregateFunc.digits_kindName (func : AggregateFunc) :
    func.kindName.toList.filter Char.isDigit = [] := by
  cases func <;> decide

theorem Expr.digits_kindName (e : Expr) : e.kindName.toList.filter Char.isDigit = [] := by
  unfold kindName
  split
  · decide
  · decide
  · decide
  · decide
  · decide
  · exact BinaryOp.digits_kindName _
  · exact AggregateFunc.digits_kindName _
  · exact AggregateFunc.digits_kindName _

/-- The digits of a computed column's name are those of its position. -/
theorem digits_kindName_append (e : Expr) (i : ℕ) :
    (e.kindName ++ toString i).toList.filter Char.isDigit = Nat.toDigits 10 i := by
  have hdigits : (toString i).toList = Nat.toDigits 10 i := by
    rw [Nat.toString_eq_ofList_toDigits, String.toList_ofList]
  rw [String.toList_append, List.filter_append, e.digits_kindName, hdigits, List.nil_append]
  exact List.filter_eq_self.mpr
    (fun c hc => Nat.isDigit_of_mem_toDigits (by decide) (by decide) hc)

/-- Computed columns at different positions have different names, whatever their kinds. -/
theorem kindName_append_ne (e f : Expr) {i j : ℕ} (hij : i ≠ j) :
    e.kindName ++ toString i ≠ f.kindName ++ toString j := by
  intro h
  have hdigits : Nat.toDigits 10 i = Nat.toDigits 10 j := by
    rw [← digits_kindName_append e i, h, digits_kindName_append]
  have hvalue := congrArg (fun ds => Nat.ofDigitChars 10 ds 0) hdigits
  exact hij (by simpa using hvalue)

/-! ### Reading the list back -/

theorem Data.Tree.isValue_ofFields_iff {fields : List (String × Tree)} :
    (ofFields fields).isValue = true ↔ ∀ field ∈ fields, field.2.isValue = true := by
  rw [ofFields, isValue, allFieldValues_iff, List.forall_mem_map]
  exact forall₂_congr (fun field _ => and_iff_right rfl)

theorem Data.Tree.isValue_list_iff {items : List Tree} :
    (list items).isValue = true ↔ ∀ t ∈ items, t.isValue = true := by
  rw [isValue, allValues_iff]

theorem Literal.isValue_toTree_iff (l : Literal) :
    l.toTree.isValue = true ↔ ∀ x ∈ (Expr.literal l).floats, x.isFinite = true := by
  cases l <;> simp [toTree, Expr.floats, Tree.bool, Tree.int, Tree.string, Tree.isValue]

theorem Expr.isValue_toTree_iff (e : Expr) :
    e.toTree.isValue = true ↔ ∀ x ∈ e.floats, x.isFinite = true := by
  have hstring (s : String) : (Tree.string s).isValue = true := rfl
  induction e with
  | attr ref =>
      have href : ref.toTree.isValue = true := by cases ref <;> rfl
      simp [toTree, floats, Tree.isValue_ofFields_iff, href]
  | literal value =>
      rw [← value.isValue_toTree_iff]
      simp [toTree, Tree.isValue_ofFields_iff]
  | unary op e ih => simp [toTree, floats, variantTree, Tree.isValue_ofFields_iff, hstring, ih]
  | binary op l r ihl ihr =>
      simp [toTree, floats, variantTree, Tree.isValue_ofFields_iff, hstring, ihl, ihr, or_imp, forall_and]
  | aggregate func e ih => simp [toTree, floats, variantTree, Tree.isValue_ofFields_iff, hstring, ih]
  | tally func => simp [toTree, floats, variantTree, Tree.isValue_ofFields_iff, hstring]

theorem isValue_columns_iff (columns : List Expr) :
    (Tree.list (columns.map Expr.toTree)).isValue = true ↔
      ∀ e ∈ columns, ∀ x ∈ e.floats, x.isFinite = true := by
  rw [Tree.isValue_list_iff, List.forall_mem_map]
  exact forall₂_congr (fun e _ => e.isValue_toTree_iff)

theorem read_columns {σ : Type} (state : σ) {columns : List Expr} {d : Document}
    (hroot : d.root = .list (columns.map Expr.toTree)) (hsound : d.sound = true)
    (hfits : d.root.depth ≤ d.levels) :
    ∃ after, d.read (Decoder.listOf Expr.ofTree) state = (some columns, after) := by
  rw [hroot] at hfits
  obtain ⟨_, p, hread, rfl⟩ :=
    Reads.listOf_eq (fun _ _ e _ => e.reads_toTree) d hfits (Nat.le_refl d.levels) { state := state }
  refine ⟨p.state, ?_⟩
  simp [Document.read, hroot, hread, hsound]

/-- **The columns of a grouping.**  A grouping that has a scheme has one column for each expression of
its list.  They stand in the order of the output, in which what is grouped by precedes the aggregates;
a computed one is named after its kind and its position in the list, and names from different positions
differ.  From a document that holds the list a list with the same split is read; a JSON value can hold
it exactly if the constants in it are finite. -/
theorem Plan.scheme_groupBy_outputs {cells : Cells} {notes : Notes} {columns : List Expr} {input : Plan}
    {s : Scheme} (h : (unary notes (.groupBy columns) input).scheme cells = .ok s) :
    s.size = columns.length ∧ Arranges columns (outputOrder columns) ∧
      (∃ t, input.scheme cells = .ok t ∧ List.Forall₂ (Outputs t) (outputOrder columns) s.columns) ∧
      (∀ (e f : Expr) (i j : ℕ), i ≠ j → e.kindName ++ toString i ≠ f.kindName ++ toString j) ∧
      ((Tree.list (columns.map Expr.toTree)).isValue = true ↔
        ∀ e ∈ columns, ∀ x ∈ e.floats, x.isFinite = true) ∧
      ∀ (σ : Type) (state : σ) (d : Document), d.root = .list (columns.map Expr.toTree) →
        d.sound = true → d.root.depth ≤ d.levels →
        ∃ again after, d.read (Decoder.listOf Expr.ofTree) state = (some again, after) ∧
          grouping again = grouping columns ∧ aggregates again = aggregates columns := by
  obtain ⟨t, ht, houtputs⟩ := forall₂_outputs h
  have hsize : s.size = columns.length := by
    rw [Scheme.size, ← houtputs.length_eq, (outputOrder_perm_indexed columns).length_eq, length_indexed]
  refine ⟨hsize, arranges_outputOrder columns, ⟨t, ht, houtputs⟩,
    fun e f _ _ => kindName_append_ne e f, isValue_columns_iff columns, ?_⟩
  intro σ state d hroot hsound hfits
  obtain ⟨after, hread⟩ := read_columns state hroot hsound hfits
  exact ⟨columns, after, hread, rfl, rfl⟩

/-- Counts the rows and adds up a column, for each value of the column and of its negation. -/
def summary : List Expr :=
  [.tally .countAll, .named "a", .aggregate .sum (.named "a"), .unary .neg (.named "a")]

theorem Plan.scheme_groupBy_outputs_summary :
    (unary {} (.groupBy summary) labelled).scheme .empty =
        .ok ⟨[.named "a" .int, .named "NEG3" .int, .named "COUNTALL0" .long, .named "SUM2" .long]⟩ ∧
      (outputOrder summary).map Prod.fst = [1, 3, 0, 2] ∧ Arranges summary (outputOrder summary) ∧
      ∃ again after, (Document.ofValue (.list (summary.map Expr.toTree))).read
          (Decoder.listOf Expr.ofTree) () = (some again, after) ∧
        grouping again = grouping summary ∧ aggregates again = aggregates summary := by
  have hscheme : (unary {} (.groupBy summary) labelled).scheme .empty =
      .ok ⟨[.named "a" .int, .named "NEG3" .int, .named "COUNTALL0" .long, .named "SUM2" .long]⟩ := rfl
  obtain ⟨_, harranges, _, _, _, hread⟩ := scheme_groupBy_outputs hscheme
  exact ⟨hscheme, rfl, harranges, hread Unit () (.ofValue (.list (summary.map Expr.toTree))) rfl rfl
    (Nat.le_refl _)⟩

/-! ### A list that JSON cannot hold -/

theorem Json.writeAtom_of_not_isFinite {x : Binary64} (h : x.isFinite = false) :
    writeAtom (.float x) = "null" := by
  simp [writeAtom, Binary64.format, h, numberStyle]

/-- Groups by infinity. -/
def unbounded : List Expr := [.literal (.float ⟨0x7FF0000000000000⟩)]

theorem Json.write_unbounded :
    write (.list (unbounded.map Expr.toTree)) = "[\x7b\"literal\":null\x7d]" := by
  have hnull : writeAtom (.float ⟨0x7FF0000000000000⟩) = "null" :=
    writeAtom_of_not_isFinite (by decide)
  simp only [unbounded, List.map_cons, List.map_nil, Expr.toTree, Literal.toTree, Tree.ofFields, write,
    writeItems, writeFields, hnull]
  decide

/-- **A constant that is not finite is lost in JSON.**  The grouping has a scheme, but its list is not
read back from the text that is written for it. -/
theorem infinite_column_unread :
    (Plan.unary {} (.groupBy unbounded) (.leaf {} .singleton)).scheme .empty =
        .ok ⟨[.named "LITERAL0" .double]⟩ ∧
      ((Json.read (Json.write (.list (unbounded.map Expr.toTree)))).read
        (Decoder.listOf Expr.ofTree) ()).1 = none := by
  refine ⟨rfl, ?_⟩
  rw [Json.write_unbounded]
  cbv

end Planner
