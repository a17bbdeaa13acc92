import Mathlib.Data.Nat.Notation
import Planner.Plan.Scheme

/-! # The columns that typing looks up

`Expr.checkedRefs` lists the references outside of operands of `NOT`, `Expr.skippedRefs` the others.
Typing an expression resolves the first ones, one after the other: it succeeds only if all of them
stand for columns, and a failure to resolve is that of one of them (`Checked`, `checked_typeOf`).  The
others are not looked at: the columns that a typed expression reads are all there exactly if those in
operands of `NOT` are (`Expr.Resolved`).

Main statement: `typeOf_resolves`, with the operators that type lists of expressions.
`typeOf_skips_negated` is what becomes of a reference below `NOT`. -/

namespace Planner

/-- All references of a list stand for columns. -/
def Scheme.Has (s : Scheme) (refs : List ColumnRef) : Prop := ∀ ref ∈ refs, ∃ c, s.resolve ref = .ok c

/-! ### Results that look up references -/

/-- A result that was found by looking up some references: all of them stand for columns if there is a
result, and where the columns of the scheme are to blame for a failure, one of them fails so. -/
structure Checked {α : Type} (s : Scheme) (refs : List ColumnRef) (x : Except SchemeError α) :
    Prop where
  resolves : ∀ a, x = .ok a → s.Has refs
  fails : ∀ e, x = .error e → e.isSchemaError = true → ∃ ref ∈ refs, s.resolve ref = .error e

namespace Checked

variable {α β : Type} {s : Scheme} {refs more : List ColumnRef} {x : Except SchemeError α}
  {f : α → Except SchemeError β}

theorem ok (a : α) : Checked s [] (.ok a : Except SchemeError α) := by
  refine ⟨?_, ?_⟩
  · intro _ _ ref href
    cases href
  · intro e he
    cases he

theorem mismatch (e : Expr) (cause : Mismatch) :
    Checked s [] (.error (.typeMismatch e cause) : Except SchemeError α) := by
  refine ⟨?_, ?_⟩
  · intro a ha
    cases ha
  · intro e he hschema
    cases he
    cases hschema

theorem resolve (s : Scheme) (ref : ColumnRef) : Checked s [ref] (s.resolve ref) := by
  refine ⟨?_, ?_⟩
  · intro c hc r hr
    rw [List.mem_singleton.mp hr]
    exact ⟨c, hc⟩
  · intro e he _
    exact ⟨ref, List.mem_singleton_self ref, he⟩

/-- First some references, then others. -/
theorem bind (hx : Checked s refs x) (hf : ∀ a, Checked s more (f a)) :
    Checked s (refs ++ more) (x >>= f) := by
  cases hcase : x with
  | error e =>
      refine ⟨?_, ?_⟩
      · intro b hb
        cases hb
      · intro e' he' hschema
        cases he'
        obtain ⟨ref, href, hfail⟩ := hx.fails e hcase hschema
        exact ⟨ref, List.mem_append_left _ href, hfail⟩
  | ok a =>
      refine ⟨?_, ?_⟩
      · intro b hb ref href
        rcases List.mem_append.mp href with href | href
        · exact hx.resolves a hcase ref href
        · exact (hf a).resolves b hb ref href
      · intro e he hschema
        obtain ⟨ref, href, hfail⟩ := (hf a).fails e he hschema
        exact ⟨ref, List.mem_append_right _ href, hfail⟩

theorem bind_nil (hx : Checked s refs x) (hf : ∀ a, Checked s [] (f a)) : Checked s refs (x >>= f) := by
  have h := hx.bind hf
  rwa [List.append_nil] at h

end Checked

/-! ### Expressions -/

namespace Expr

/-- The columns read outside of operands of `NOT`, from left to right. -/
def checkedRefs : Expr → List ColumnRef
  | attr ref => [ref]
  | literal _ => []
  | unary .not _ => []
  | unary .neg e => e.checkedRefs
  | binary _ l r => l.checkedRefs ++ r.checkedRefs
  | aggregate _ e => e.checkedRefs
  | tally _ => []

/-- The columns read in operands of `NOT`, from left to right. -/
def skippedRefs : Expr → List ColumnRef
  | attr _ => []
  | literal _ => []
  | unary .not e => e.refs
  | unary .neg e => e.skippedRefs
  | binary _ l r => l.skippedRefs ++ r.skippedRefs
  | aggregate _ e => e.skippedRefs
  | tally _ => []

theorem mem_refs_iff {e : Expr} {ref : ColumnRef} :
    ref ∈ e.refs ↔ ref ∈ e.checkedRefs ∨ ref ∈ e.skippedRefs := by
  induction e with
  | attr r => simp [refs, checkedRefs, skippedRefs]
  | literal value => simp [refs, checkedRefs, skippedRefs]
  | unary op e ih =>
      cases op with
      | not => simp [refs, checkedRefs, skippedRefs]
      | neg => exact ih
  | binary op l r ihl ihr =>
      simp only [refs, checkedRefs, skippedRefs, List.mem_append, ihl, ihr]
      exact or_or_or_comm
  | aggregate func e ih => exact ih
  | tally func => simp [refs, checkedRefs, skippedRefs]

/-- What a type over the scheme says about the columns read: those outside of operands of `NOT` are
there, and all of them are exactly if the others are. -/
structure Resolved (s : Scheme) (e : Expr) : Prop where
  checked : s.Has e.checkedRefs
  refs_iff : s.Has e.refs ↔ s.Has e.skippedRefs

theorem resolved_of_has {s : Scheme} {e : Expr} (h : s.Has e.checkedRefs) : e.Resolved s := by
  refine ⟨h, fun hall ref href => hall ref (mem_refs_iff.mpr (Or.inr href)), ?_⟩
  intro hskipped ref href
  rcases mem_refs_iff.mp href with href | href
  · exact h ref href
  · exact hskipped ref href

/-- **Typing resolves the references outside of operands of `NOT`.** -/
theorem checked_typeOf (s : Scheme) (e : Expr) : Checked s e.checkedRefs (e.typeOf s) := by
  induction e with
  | attr ref =>
      have htype : typeOf s (attr ref) = s.resolve ref >>= fun c => .ok c.type := by
        unfold typeOf
        cases s.resolve ref <;> rfl
      rw [htype]
      exact (Checked.resolve s ref).bind_nil (fun c => Checked.ok c.type)
  | literal value => exact Checked.ok _
  | unary op e ih =>
      cases op with
      | not => exact Checked.ok _
      | neg =>
          refine ih.bind_nil (fun t => ?_)
          split
          · exact Checked.ok t
          · exact Checked.mismatch _ _
  | binary op l r ihl ihr =>
      refine ihl.bind (fun lt => ihr.bind_nil (fun rt => ?_))
      split
      · exact Checked.ok _
      · exact Checked.mismatch _ _
  | aggregate func e ih =>
      refine ih.bind_nil (fun t => ?_)
      split
      · exact Checked.ok _
      · exact Checked.mismatch _ _
  | tally func =>
      rw [typeOf]
      split
      · exact Checked.ok _
      · exact Checked.mismatch _ _

end Expr

/-! ### Operators that type expressions -/

variable {α β : Type}

theorem exists_of_bind_eq_ok {x : Except PlanError α} {f : α → Except PlanError β} {b : β}
    (h : x >>= f = .ok b) : ∃ a, x = .ok a ∧ f a = .ok b := by
  cases x with
  | error e => cases h
  | ok a => exact ⟨a, rfl, h⟩

theorem exists_of_map_eq_ok {x : Except PlanError α} {f : α → β} {b : β} (h : x.map f = .ok b) :
    ∃ a, x = .ok a ∧ f a = b := by
  cases x with
  | error e => cases h
  | ok a => exact ⟨a, rfl, Except.ok.inj h⟩

theorem eq_ok_of_liftScheme {x : Except SchemeError α} {a : α} (h : liftScheme x = .ok a) :
    x = .ok a := by
  cases x with
  | error e => cases h
  | ok b =>
      obtain rfl := Except.ok.inj h
      rfl

theorem exists_ok_of_mapM {f : α → Except PlanError β} {l : List α} {bs : List β}
    (h : l.mapM f = .ok bs) : ∀ a ∈ l, ∃ b, f a = .ok b := by
  induction l generalizing bs with
  | nil =>
      intro a ha
      cases ha
  | cons a rest ih =>
      rw [List.mapM_cons] at h
      obtain ⟨b, hb, h⟩ := exists_of_bind_eq_ok h
      obtain ⟨bs, hbs, _⟩ := exists_of_bind_eq_ok h
      exact List.forall_mem_cons.mpr ⟨⟨b, hb⟩, ih hbs⟩

theorem exists_mem_outputOrder {columns : List Expr} {e : Expr} (he : e ∈ columns) :
    ∃ i, (i, e) ∈ outputOrder columns := by
  obtain ⟨i, hi, rfl⟩ := List.getElem_of_mem he
  refine ⟨i, ?_⟩
  have hindexed : (i, columns[i]) ∈ indexed columns := by
    rw [indexed, List.mem_iff_getElem?]
    exact ⟨i, by simp [hi]⟩
  simp only [outputOrder, grouping, aggregates, List.mem_append, List.mem_filter, hindexed, true_and]
  cases columns[i].isAggregate <;> simp

theorem Expr.resolved_of_typeOf {e : Expr} {s : Scheme} {t : ColumnType}
    (h : liftScheme (e.typeOf s) = .ok t) : e.Resolved s :=
  resolved_of_has ((e.checked_typeOf s).resolves t (eq_ok_of_liftScheme h))

theorem Mapping.resolved_of_column {m : Mapping} {s : Scheme} {c : Column} (h : m.column s = .ok c) :
    m.expr.Resolved s := by
  obtain ⟨t, ht, _⟩ := exists_of_bind_eq_ok h
  exact Expr.resolved_of_typeOf ht

theorem resolved_of_groupColumn {s : Scheme} {i : ℕ} {e : Expr} {c : Column}
    (h : groupColumn s (i, e) = .ok c) : e.Resolved s := by
  unfold groupColumn at h
  split at h
  · rename_i ref href
    -- A bare reference is copied with its name, not typed.
    cases e with
    | attr r =>
        obtain rfl := Option.some.inj href
        exact Expr.resolved_of_has ((Checked.resolve s r).resolves c (eq_ok_of_liftScheme h))
    | _ => cases href
  · obtain ⟨t, ht, _⟩ := exists_of_bind_eq_ok h
    exact Expr.resolved_of_typeOf ht

namespace Plan

variable {cells : Cells} {notes : Notes} {input : Plan} {out : Scheme}

theorem scheme_apply_eq_ok {mappings : List Mapping}
    (h : (unary notes (.apply mappings) input).scheme cells = .ok out) :
    ∃ s, input.scheme cells = .ok s ∧ ∀ m ∈ mappings, m.expr.Resolved s := by
  obtain ⟨_, _, h⟩ := exists_of_bind_eq_ok h
  obtain ⟨s, hs, h⟩ := exists_of_bind_eq_ok h
  obtain ⟨columns, hcolumns, _⟩ := exists_of_map_eq_ok h
  refine ⟨s, hs, fun m hm => ?_⟩
  obtain ⟨c, hc⟩ := exists_ok_of_mapM hcolumns m hm
  exact Mapping.resolved_of_column hc

theorem scheme_groupBy_eq_ok {columns : List Expr}
    (h : (unary notes (.groupBy columns) input).scheme cells = .ok out) :
    ∃ s, input.scheme cells = .ok s ∧ ∀ e ∈ columns, e.Resolved s := by
  obtain ⟨_, _, h⟩ := exists_of_bind_eq_ok h
  obtain ⟨s, hs, h⟩ := exists_of_bind_eq_ok h
  obtain ⟨columns, hcolumns, _⟩ := exists_of_map_eq_ok h
  refine ⟨s, hs, fun e he => ?_⟩
  obtain ⟨i, hi⟩ := exists_mem_outputOrder he
  obtain ⟨c, hc⟩ := exists_ok_of_mapM hcolumns (i, e) hi
  exact resolved_of_groupColumn hc

end Plan

/-- **Typing leaves references unresolved in operands of `NOT` only.**  For an expression that has a
type, and for all expressions that an operator with a scheme computes or groups by: the columns that
are read are all there exactly if those in operands of `NOT` are.  A column that is not found is one
that is read. -/
theorem typeOf_resolves (s : Scheme) (e : Expr) (cells : Cells) (notes : Notes) (input : Plan)
    (out : Scheme) :
    (∀ t, e.typeOf s = .ok t → e.Resolved s) ∧
      (∀ err, e.typeOf s = .error err → err.isSchemaError = true →
        ∃ ref ∈ e.refs, s.resolve ref = .error err) ∧
      (∀ mappings, (Plan.unary notes (.apply mappings) input).scheme cells = .ok out →
        ∃ below, input.scheme cells = .ok below ∧ ∀ m ∈ mappings, m.expr.Resolved below) ∧
      ∀ columns, (Plan.unary notes (.groupBy columns) input).scheme cells = .ok out →
        ∃ below, input.scheme cells = .ok below ∧ ∀ e ∈ columns, e.Resolved below := by
  have hchecked := e.checked_typeOf s
  refine ⟨fun t ht => Expr.resolved_of_has (hchecked.resolves t ht), fun err herr hschema => ?_,
    fun _ => Plan.scheme_apply_eq_ok, fun _ => Plan.scheme_groupBy_eq_ok⟩
  obtain ⟨ref, href, hfail⟩ := hchecked.fails err herr hschema
  exact ⟨ref, Expr.mem_refs_iff.mpr (Or.inl href), hfail⟩

/-- A relation without rows that has one column. -/
def labelled : Plan := .leaf {} (.emptyRelation ⟨[.named "a" .int]⟩)

/-- A sum with a column that is not there, and a mapping of one that is. -/
theorem typeOf_resolves_sum :
    let s : Scheme := ⟨[.named "a" .int]⟩
    let sum : Expr := .binary .plus (.named "a") (.named "x")
    sum.typeOf s = .error (.unknownColumn "x" s) ∧
      (∃ ref ∈ sum.refs, s.resolve ref = .error (.unknownColumn "x" s)) ∧
      (Plan.unary {} (.apply [⟨none, .unary .neg (.named "a")⟩]) labelled).scheme .empty =
        .ok ⟨[.named "(-a)" .int]⟩ ∧
      ∃ c, s.resolve (.name "a") = .ok c := by
  intro s sum
  have hsum : sum.typeOf s = .error (.unknownColumn "x" s) := rfl
  have hscheme : (Plan.unary {} (.apply [⟨none, .unary .neg (.named "a")⟩]) labelled).scheme .empty =
      .ok ⟨[.named "(-a)" .int]⟩ := rfl
  obtain ⟨_, hfails, happly, _⟩ := typeOf_resolves s sum .empty {} labelled _
  obtain ⟨below, hbelow, hresolved⟩ := happly _ hscheme
  obtain rfl := Except.ok.inj hbelow
  have hall := (hresolved _ List.mem_cons_self).refs_iff.mpr (fun _ h => absurd h List.not_mem_nil)
  exact ⟨hsum, hfails _ hsum rfl, hscheme, hall _ (List.mem_singleton_self _)⟩

/-- **A reference below `NOT` is not looked at.**  The scheme has no column of that name, but the
negation has a type, and the operators that compute it and group by it have schemes. -/
theorem typeOf_skips_negated :
    let s : Scheme := ⟨[.named "a" .int]⟩
    let negated : Expr := .unary .not (.named "x")
    negated.typeOf s = .ok .boolean ∧ negated.refs = [.name "x"] ∧
      s.resolve (.name "x") = .error (.unknownColumn "x" s) ∧
      (Plan.unary {} (.apply [⟨some "b", negated⟩]) labelled).scheme .empty =
        .ok ⟨[.named "b" .boolean]⟩ ∧
      (Plan.unary {} (.groupBy [negated]) labelled).scheme .empty =
        .ok ⟨[.named "NOT0" .boolean]⟩ :=
  ⟨rfl, rfl, rfl, rfl, rfl⟩

end Planner
