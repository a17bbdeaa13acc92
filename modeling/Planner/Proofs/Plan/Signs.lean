import Planner.Proofs.Plan.Equality

/-! # Equal plans and the signs of zeros

A comparison of plans goes through their operators, and there it compares fractions by value.  So equal
plans have fractions of equal values one by one (`forall₂_floats`), and only a zero may have another
sign on the other side.  Where the signs agree as well, the plans are the same but for notes and cells
(`bare_eq_of_same`): each expression is the same, then each operator, then each node over its inputs. -/

namespace Planner

/-! ### Fractions -/

theorem Binary64.eq_of_sameValue {x y : Binary64} (h : x.sameValue y = true)
    (hsign : x.isNegative = y.isNegative) : x = y := by
  simp only [sameValue, Bool.and_eq_true, Bool.or_eq_true, beq_iff_eq] at h
  obtain ⟨_, hbits | ⟨hx, hy⟩⟩ := h
  · cases x
    cases y
    exact congrArg _ hbits
  · -- Of a zero only the sign is left.
    have h11 : twoTo 11 = 2048 := rfl
    have h52 : twoTo 52 = 4503599627370496 := rfl
    have h63 : twoTo 63 = 9223372036854775808 := rfl
    simp only [isZero, exponentField, fraction, h11, h52, Bool.and_eq_true, beq_iff_eq] at hx hy
    simp only [isNegative, h63, decide_eq_decide] at hsign
    have hxlt := x.bits.toNat_lt
    have hylt := y.bits.toNat_lt
    have hnat : x.bits.toNat = y.bits.toNat := by omega
    cases x
    cases y
    exact congrArg _ (UInt64.toNat_inj.mp hnat)

/-- Numbers that are the same in value one by one are the same if their signs are. -/
theorem Binary64.eq_of_forall₂ {xs ys : List Binary64}
    (h : List.Forall₂ (fun x y => x.sameValue y = true) xs ys)
    (hsigns : xs.map isNegative = ys.map isNegative) : xs = ys := by
  induction h with
  | nil => rfl
  | cons hxy _ ih =>
      rw [List.map_cons, List.map_cons, List.cons.injEq] at hsigns
      rw [eq_of_sameValue hxy hsigns.1, ih hsigns.2]

/-! ### Lists one by one -/

section Lists

variable {α β : Type} {f : α → List β} {as bs : List α}

theorem Unary.agree_iff_forall₂ {same : α → α → Bool} :
    agree same as bs = true ↔ List.Forall₂ (fun a b => same a b = true) as bs := by
  induction as generalizing bs with
  | nil => cases bs <;> simp [agree]
  | cons a as ih => cases bs <;> simp [agree, ih]

theorem map_eq_map_iff_forall₂ {g : α → β} :
    as.map g = bs.map g ↔ List.Forall₂ (fun a b => g a = g b) as bs := by
  rw [← List.forall₂_eq_eq_eq, List.forall₂_map_left_iff, List.forall₂_map_right_iff]

theorem forall₂_of_flatMap_eq {R : α → α → Prop} (h : List.Forall₂ R as bs)
    (hlen : ∀ a b, R a b → (f a).length = (f b).length)
    (heq : as.flatMap f = bs.flatMap f) : List.Forall₂ (fun a b => R a b ∧ f a = f b) as bs := by
  induction h with
  | nil => exact List.Forall₂.nil
  | cons hab _ ih =>
      obtain ⟨hhead, hrest⟩ := List.append_inj heq (hlen _ _ hab)
      exact List.Forall₂.cons ⟨hab, hhead⟩ (ih hrest)

end Lists

/-! ### Expressions and operators -/

namespace Expr

variable {e f : Expr}

theorem forall₂_floats (h : e.same f = true) :
    List.Forall₂ (fun x y => x.sameValue y = true) e.floats f.floats := by
  induction e generalizing f with
  | attr ref => cases f <;> simp [same, floats] at h ⊢
  | literal value =>
      cases f with
      | literal other => cases value <;> cases other <;> simp [same, Literal.same, floats] at h ⊢; exact h
      | _ => simp [same] at h
  | unary op e ih =>
      cases f with
      | unary op' f =>
          simp only [same, Bool.and_eq_true] at h
          exact ih (f := f) h.2
      | _ => simp [same] at h
  | binary op l r ihl ihr =>
      cases f with
      | binary op' l' r' =>
          simp only [same, Bool.and_eq_true] at h
          exact List.rel_append (ihl h.1.2) (ihr h.2)
      | _ => simp [same] at h
  | aggregate func e ih =>
      cases f with
      | aggregate func' f =>
          simp only [same, Bool.and_eq_true] at h
          exact ih (f := f) h.2
      | _ => simp [same] at h
  | tally func => cases f <;> simp [same, floats] at h ⊢

theorem eq_of_same (h : e.same f = true) (hfloats : e.floats = f.floats) : e = f := by
  induction e generalizing f with
  | attr ref => cases f <;> simp_all [same]
  | literal value =>
      cases f with
      | literal other => cases value <;> cases other <;> simp_all [same, Literal.same, floats]
      | _ => simp [same] at h
  | unary op e ih =>
      cases f with
      | unary op' f =>
          simp only [same, Bool.and_eq_true, beq_iff_eq] at h
          rw [h.1, ih h.2 hfloats]
      | _ => simp [same] at h
  | binary op l r ihl ihr =>
      cases f with
      | binary op' l' r' =>
          simp only [same, Bool.and_eq_true, beq_iff_eq] at h
          obtain ⟨hl, hr⟩ := List.append_inj hfloats (forall₂_floats h.1.2).length_eq
          rw [h.1.1, ihl h.1.2 hl, ihr h.2 hr]
      | _ => simp [same] at h
  | aggregate func e ih =>
      cases f with
      | aggregate func' f =>
          simp only [same, Bool.and_eq_true, beq_iff_eq] at h
          rw [h.1, ih h.2 hfloats]
      | _ => simp [same] at h
  | tally func => cases f <;> simp_all [same]

theorem eq_of_sameAll {es fs : List Expr}
    (h : List.Forall₂ (fun e f => e.same f = true) es fs)
    (hfloats : es.flatMap floats = fs.flatMap floats) : es = fs := by
  have heach := forall₂_of_flatMap_eq h (fun _ _ hsame => (forall₂_floats hsame).length_eq) hfloats
  exact List.forall₂_eq_eq_eq ▸ heach.imp (fun _ _ hef => eq_of_same hef.1 hef.2)

end Expr

theorem Unary.forall₂_exprs {a b : Unary} (h : a.same b = true) :
    List.Forall₂ (fun e f => e.same f = true) a.exprs b.exprs := by
  cases a <;> cases b <;> simp_all [same, exprs, agree_iff_forall₂]
  exact h.imp (fun _ _ hmn => hmn.2)

theorem Mapping.eq_of_names {ms ns : List Mapping} (h : List.Forall₂ (fun m n => m.name = n.name) ms ns)
    (hexprs : ms.map expr = ns.map expr) : ms = ns := by
  induction h with
  | nil => rfl
  | @cons m n _ _ hname _ ih =>
      rw [List.map_cons, List.map_cons, List.cons.injEq] at hexprs
      obtain rfl : m = n := by
        cases m
        cases n
        simp_all
      rw [ih hexprs.2]

/-- Operators that are equal and have the same expressions differ in cells only. -/
theorem Unary.bare_eq_of_same {a b : Unary} (h : a.same b = true) (hexprs : a.exprs = b.exprs) :
    a.bare = b.bare := by
  cases a with
  | apply mappings =>
      cases b with
      | apply others =>
          simp only [same, agree_iff_forall₂, Bool.and_eq_true, beq_iff_eq] at h
          rw [Mapping.eq_of_names (h.imp fun _ _ hmn => hmn.1) hexprs]
      | _ => simp [same] at h
  | _ => cases b <;> simp_all [same, exprs, bare]

theorem Binary.forall₂_exprs {a b : Binary} (h : a.same b = true) :
    List.Forall₂ (fun e f => e.same f = true) a.exprs b.exprs := by
  cases a <;> cases b <;> simp_all [same, exprs]

theorem Binary.eq_of_same {a b : Binary} (h : a.same b = true) (hexprs : a.exprs = b.exprs) : a = b := by
  cases a <;> cases b <;> simp_all [same, exprs]

/-! ### Plans -/

namespace Plan

variable {p q : Plan}

/-- Equality of the roots. -/
def sameRoot : Plan → Plan → Bool
  | leaf _ a, leaf _ b => a.same b
  | unary _ a _, unary _ b _ => a.same b
  | binary _ a _ _, binary _ b _ _ => a.same b
  | nary _ a _, nary _ b _ => a == b
  | _, _ => false

theorem same_iff : p.same q = true ↔
    p.sameRoot q = true ∧ List.Forall₂ (fun a b => a.same b = true) p.inputs q.inputs := by
  cases p <;> cases q <;>
    simp [same, sameRoot, inputs, sameAll_eq_agree, Unary.agree_iff_forall₂, and_assoc]

theorem forall₂_exprs (h : p.sameRoot q = true) :
    List.Forall₂ (fun e f => e.same f = true) p.exprs q.exprs := by
  cases p <;> cases q <;> simp_all [sameRoot, exprs, Unary.forall₂_exprs, Binary.forall₂_exprs]

theorem bareRoot_eq_of_same (h : p.sameRoot q = true) (hexprs : p.exprs = q.exprs) {rs : List Plan}
    (hlen : rs.length = p.inputs.length) : p.bareRoot.withInputs rs = q.bareRoot.withInputs rs := by
  cases p with
  | leaf notes a =>
      cases q with
      | leaf notes' b =>
          obtain rfl : rs = [] := List.eq_nil_of_length_eq_zero hlen
          have hbare : a.bare = b.bare := by
            cases a <;> cases b <;> simp_all [sameRoot, Leaf.same, Leaf.bare]
          simp [bareRoot, hbare]
      | _ => simp [sameRoot] at h
  | unary notes a p =>
      cases q with
      | unary notes' b q =>
          obtain ⟨r, rfl⟩ := List.length_eq_one_iff.mp hlen
          simp [bareRoot, withInputs, Unary.bare_eq_of_same h hexprs]
      | _ => simp [sameRoot] at h
  | binary notes a l r =>
      cases q with
      | binary notes' b m s =>
          obtain ⟨l', r', rfl⟩ := List.length_eq_two.mp hlen
          simp [bareRoot, withInputs, Binary.eq_of_same h hexprs]
      | _ => simp [sameRoot] at h
  | nary notes a ps =>
      cases q with
      | nary notes' b qs =>
          simp only [sameRoot, beq_iff_eq] at h
          simp [bareRoot, withInputs, h]
      | _ => simp [sameRoot] at h

theorem forall₂_floats (h : p.same q = true) :
    List.Forall₂ (fun x y => x.sameValue y = true) p.floats q.floats := by
  induction p using induction_inputs generalizing q with
  | step p ih =>
      obtain ⟨hroot, hinputs⟩ := same_iff.mp h
      rw [floats_eq, floats_eq q]
      refine List.rel_append ?_ ?_
      · exact List.rel_flatMap (forall₂_exprs hroot) (fun _ _ => Expr.forall₂_floats)
      · have hboth := (List.forall₂_and_left _ _).mpr ⟨ih, hinputs⟩
        exact List.rel_flatMap hboth (fun _ _ hab => hab.1 hab.2)

theorem bare_eq_of_floats (h : p.same q = true) (hfloats : p.floats = q.floats) : p.bare = q.bare := by
  induction p using induction_inputs generalizing q with
  | step p ih =>
      obtain ⟨hroot, hinputs⟩ := same_iff.mp h
      have hexprs := forall₂_exprs hroot
      rw [floats_eq, floats_eq q] at hfloats
      have hlen : (p.exprs.flatMap Expr.floats).length = (q.exprs.flatMap Expr.floats).length :=
        (List.rel_flatMap hexprs (fun _ _ => Expr.forall₂_floats)).length_eq
      obtain ⟨hhere, hbelow⟩ := List.append_inj hfloats hlen
      have heach := forall₂_of_flatMap_eq hinputs (fun _ _ hab => (forall₂_floats hab).length_eq) hbelow
      have hbare : p.inputs.map bare = q.inputs.map bare := by
        have hboth := (List.forall₂_and_left _ _).mpr ⟨ih, heach⟩
        exact map_eq_map_iff_forall₂.mpr (hboth.imp (fun _ _ hab => hab.1 hab.2.1 hab.2.2))
      rw [bare_eq p, bare_eq q, ← hbare]
      exact bareRoot_eq_of_same hroot (Expr.eq_of_sameAll hexprs hhere) (by simp)

/-- **Equal plans whose fractions have the same signs have one bare form.**  A comparison tells all
fractions apart but the two zeros. -/
theorem bare_eq_of_same (h : p.same q = true)
    (hsigns : p.floats.map Binary64.isNegative = q.floats.map Binary64.isNegative) : p.bare = q.bare :=
  bare_eq_of_floats h (Binary64.eq_of_forall₂ (forall₂_floats h) hsigns)

end Plan

end Planner
