import Planner.Proofs.Plan.Reads

/-! # Equality of plans

`Plan.bare` is a plan without its notes and without the numbers of its cells.  `same` compares plans
through their bare forms (`same_eq_bare`), so plans with one bare form are alike in every comparison.
Of a plan's own parts only the constants count then: it equals itself unless a NaN stands in one of its
expressions (`same_self_iff`). -/

namespace Planner

/-! ### Expressions and operators -/

theorem Binary64.sameValue_self (x : Binary64) : x.sameValue x = !x.isNaN := by
  simp [sameValue]

theorem Binary64.not_isNaN_of_isFinite {x : Binary64} (h : x.isFinite = true) : x.isNaN = false := by
  simp only [isFinite, bne_iff_ne] at h
  simp [isNaN, h]

namespace Expr

/-- The fractions among the constants of an expression. -/
def floats : Expr → List Binary64
  | literal (.float x) => [x]
  | unary _ e => e.floats
  | binary _ l r => l.floats ++ r.floats
  | aggregate _ e => e.floats
  | _ => []

theorem same_self_iff (e : Expr) : e.same e = true ↔ ∀ x ∈ e.floats, x.isNaN = false := by
  induction e with
  | attr ref => simp [same, floats]
  | literal value => cases value <;> simp [same, floats, Literal.same, Binary64.sameValue_self]
  | unary op e ih => simp [same, floats, ih]
  | binary op l r ihl ihr => simp [same, floats, ihl, ihr, or_imp, forall_and]
  | aggregate func e ih => simp [same, floats, ih]
  | tally func => simp [same, floats]

end Expr

/-- The expressions of an operator. -/
def Unary.exprs : Unary → List Expr
  | select condition => [condition]
  | apply mappings => mappings.map Mapping.expr
  | groupBy columns => columns
  | _ => []

/-- The expressions of an operator. -/
def Binary.exprs : Binary → List Expr
  | join condition => [condition]
  | projectingJoin condition _ => [condition]
  | _ => []

theorem Unary.agree_self_iff {α : Type} {f : α → α → Bool} (as : List α) :
    agree f as as = true ↔ ∀ a ∈ as, f a a = true := by
  induction as with
  | nil => simp [agree]
  | cons a as ih => simp [agree, ih]

theorem Unary.agree_map {α β : Type} {f : α → α → Bool} {g : β → β → Bool} (h : α → β) {as : List α}
    (hf : ∀ a ∈ as, ∀ b, f a b = g (h a) (h b)) (bs : List α) :
    agree f as bs = agree g (as.map h) (bs.map h) := by
  induction as generalizing bs with
  | nil => cases bs <;> rfl
  | cons a as ih =>
      cases bs with
      | nil => rfl
      | cons b bs =>
          rw [List.map_cons, List.map_cons, agree, agree, hf a List.mem_cons_self,
            ih (fun c hc => hf c (List.mem_cons_of_mem a hc))]

theorem Unary.same_self_iff (op : Unary) :
    op.same op = true ↔ ∀ e ∈ op.exprs, e.same e = true := by
  cases op <;> simp [same, exprs, agree_self_iff]

theorem Binary.same_self_iff (op : Binary) :
    op.same op = true ↔ ∀ e ∈ op.exprs, e.same e = true := by
  cases op <;> simp [same, exprs]

/-! ### Bare plans -/

theorem Leaf.same_bare (a b : Leaf) : a.bare.same b.bare = a.same b := by
  cases a <;> cases b <;> rfl

theorem Unary.same_bare (a b : Unary) : a.bare.same b.bare = a.same b := by
  cases a <;> cases b <;> rfl

namespace Plan

variable {p q : Plan}

/-- The root without notes and without the number of its cell. -/
def bareRoot : Plan → Plan
  | leaf _ op => leaf {} op.bare
  | unary _ op input => unary {} op.bare input
  | binary _ op left right => binary {} op left right
  | nary _ op inputs => nary {} op inputs

/-- The plan without notes and without the numbers of its cells. -/
def bare (p : Plan) : Plan := p.fold (fun node inputs => node.bareRoot.withInputs inputs)

theorem bare_eq (p : Plan) : p.bare = p.bareRoot.withInputs (p.inputs.map bare) := by
  rw [bare, fold_eq]
  rfl

@[simp] theorem bare_leaf (notes : Notes) (op : Leaf) : (leaf notes op).bare = leaf {} op.bare := rfl

@[simp] theorem bare_unary (notes : Notes) (op : Unary) (input : Plan) :
    (unary notes op input).bare = unary {} op.bare input.bare := rfl

@[simp] theorem bare_binary (notes : Notes) (op : Binary) (left right : Plan) :
    (binary notes op left right).bare = binary {} op left.bare right.bare := rfl

@[simp] theorem bare_nary (notes : Notes) (op : Nary) (inputs : List Plan) :
    (nary notes op inputs).bare = nary {} op (inputs.map bare) := by
  rw [bare_eq]
  rfl

theorem inputs_bare (p : Plan) : p.bare.inputs = p.inputs.map bare := by
  cases p with
  | nary notes op inputs => rw [bare_nary]; rfl
  | _ => rfl

/-- The bare form of a plan with other inputs. -/
theorem bare_withInputs {qs : List Plan} (h : qs.length = p.inputs.length) :
    (p.withInputs qs).bare = p.bareRoot.withInputs (qs.map bare) := by
  cases p with
  | leaf notes op =>
      obtain rfl : qs = [] := List.eq_nil_of_length_eq_zero h
      rfl
  | unary notes op input =>
      obtain ⟨q, rfl⟩ := List.length_eq_one_iff.mp h
      rfl
  | binary notes op left right =>
      obtain ⟨q, r, rfl⟩ := List.length_eq_two.mp h
      rfl
  | nary notes op inputs =>
      rw [withInputs, bare_nary]
      rfl

theorem bare_withNotes (notes : Notes) (p : Plan) : (p.withNotes notes).bare = p.bare := by
  cases p with
  | nary _ op inputs => rw [withNotes, bare_nary, bare_nary]
  | _ => rfl

theorem bareRoot_relinkRoot (moves : List (CellId × CellId)) (p : Plan) :
    (p.relinkRoot moves).bareRoot = p.bareRoot := by
  unfold relinkRoot
  split <;> rfl

/-- Renaming cells leaves the bare form. -/
theorem bare_relink (moves : List (CellId × CellId)) (p : Plan) : (p.relink moves).bare = p.bare := by
  induction p using induction_inputs with
  | step p ih =>
      have hinputs : (p.inputs.map (relink moves)).map bare = p.inputs.map bare := by
        rw [List.map_map]
        exact List.map_congr_left ih
      have hlen : (p.inputs.map (relink moves)).length = (p.relinkRoot moves).inputs.length := by
        rw [List.length_map, inputs_relinkRoot]
      rw [relink_eq, bare_withInputs hlen, bareRoot_relinkRoot, hinputs, ← bare_eq]

/-- A copy has the bare form of the plan. -/
theorem bare_copy (p : Plan) (table : Cells) : (p.copy table).1.bare = p.bare := by
  unfold copy
  rw [bare_withNotes, bare_relink]

/-! ### Comparisons -/

theorem sameAll_eq_agree (ps qs : List Plan) : sameAll ps qs = Unary.agree same ps qs := by
  induction ps generalizing qs with
  | nil => cases qs <;> rfl
  | cons p ps ih =>
      cases qs with
      | nil => rfl
      | cons q qs => rw [sameAll, ih, Unary.agree]

/-- Plans are compared through their bare forms. -/
theorem same_eq_bare (p q : Plan) : p.same q = p.bare.same q.bare := by
  induction p using induction_inputs generalizing q with
  | step p ih =>
      cases p with
      | leaf notes a =>
          cases q with
          | leaf notes' b => rw [bare_leaf, bare_leaf, same, same, Leaf.same_bare]
          | _ => simp [same]
      | unary notes a p =>
          cases q with
          | unary notes' b q =>
              rw [bare_unary, bare_unary, same, same, Unary.same_bare, ih p (by simp [inputs])]
          | _ => simp [same]
      | binary notes a l r =>
          cases q with
          | binary notes' b m s =>
              rw [bare_binary, bare_binary, same, same, ih l (by simp [inputs]),
                ih r (by simp [inputs])]
          | _ => simp [same]
      | nary notes a ps =>
          cases q with
          | nary notes' b qs =>
              have hps : ∀ p ∈ ps, ∀ q, p.same q = p.bare.same q.bare := ih
              rw [bare_nary, bare_nary, same, same, sameAll_eq_agree, sameAll_eq_agree,
                Unary.agree_map bare hps]
          | _ => simp [same]

/-- Plans with one bare form are alike in every comparison. -/
theorem same_congr_left (h : p.bare = q.bare) (r : Plan) : p.same r = q.same r := by
  rw [same_eq_bare, h, ← same_eq_bare]

/-! ### Plans that equal themselves -/

/-- The expressions at the root. -/
def exprs : Plan → List Expr
  | unary _ op _ => op.exprs
  | binary _ op _ _ => op.exprs
  | _ => []

/-- The fractions among the constants of a plan. -/
def floats (p : Plan) : List Binary64 :=
  p.preorder.flatMap (fun node => node.exprs.flatMap Expr.floats)

/-- The fractions of a plan stand at its root or in its inputs. -/
theorem floats_eq (p : Plan) :
    p.floats = p.exprs.flatMap Expr.floats ++ p.inputs.flatMap floats := by
  rw [floats, preorder_eq, List.flatMap_cons, List.flatMap_assoc]
  rfl

/-- A plan equals itself if its expressions and its inputs do. -/
theorem same_self_iff_inputs (p : Plan) :
    p.same p = true ↔ (∀ e ∈ p.exprs, e.same e = true) ∧ ∀ q ∈ p.inputs, q.same q = true := by
  cases p with
  | leaf notes op => cases op <;> simp [same, Leaf.same, exprs, inputs]
  | unary notes op input =>
      rw [same, Bool.and_eq_true, op.same_self_iff]
      simp [exprs, inputs]
  | binary notes op left right =>
      rw [same, Bool.and_eq_true, Bool.and_eq_true, op.same_self_iff]
      simp [exprs, inputs, and_assoc]
  | nary notes op inputs => simp [same, sameAll_eq_agree, Unary.agree_self_iff, exprs, Plan.inputs]

/-- **A plan equals itself unless a NaN stands in one of its expressions.** -/
theorem same_self_iff (p : Plan) : p.same p = true ↔ ∀ x ∈ p.floats, x.isNaN = false := by
  induction p using induction_inputs with
  | step p ih =>
      rw [same_self_iff_inputs, floats_eq, List.forall_mem_append, List.forall_mem_flatMap,
        List.forall_mem_flatMap]
      apply and_congr
      · exact forall₂_congr (fun e _ => e.same_self_iff)
      · exact forall₂_congr ih

end Plan

end Planner
