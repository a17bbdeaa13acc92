import Planner.Proofs.Plan.Schemes

/-! # Joins that are given conditions

A join takes the condition that a column of one input agrees with a column of the other; the first one
makes a join of a product, and each further one is joined to those that are there by `AND`.  The inputs
stay, so what a pair of positions has to satisfy (`Straddles`) is the same for every call.

Main statement: `addEquijoins_conjoins`, calls one after the other succeed exactly if each pair has one
column of each input, and what comes out is the join on all conditions in the order of the calls. -/

namespace Planner

/-- The conditions of an operator that takes more of them; a product has none. -/
def Binary.conditions? : Binary → Option (List Expr)
  | join condition => some [condition]
  | crossProduct => some []
  | _ => none

/-- Conditions joined by `AND` from the left, if there are any. -/
def conjunction? : List Expr → Option Expr
  | [] => none
  | e :: rest => some (rest.foldl (Expr.binary .and) e)

/-- One position is a column of the left input and the other one of the right input, where these have
`n` and `m` columns. -/
def Straddles (n m : ℕ) (c : UInt64 × UInt64) : Prop :=
  (c.1.toNat < n ∧ n ≤ c.2.toNat ∧ c.2.toNat < n + m) ∨
    (c.2.toNat < n ∧ n ≤ c.1.toNat ∧ c.1.toNat < n + m)

instance (n m : ℕ) (c : UInt64 × UInt64) : Decidable (Straddles n m c) :=
  inferInstanceAs (Decidable (_ ∨ _))

theorem conjunction?_append {es : List Expr} {e : Expr} (h : conjunction? es = some e)
    (fs : List Expr) : conjunction? (es ++ fs) = conjunction? (e :: fs) := by
  cases es with
  | nil => cases h
  | cons f es =>
      obtain rfl := Option.some.inj h
      rw [List.cons_append, conjunction?, conjunction?, List.foldl_append]

theorem conjunction?_eq_none {es : List Expr} : conjunction? es = none ↔ es = [] := by
  cases es <;> simp [conjunction?]

/-- Conditions play no part in the scheme. -/
theorem Binary.scheme_of_conditions? {op : Binary} {cs : List Expr} (h : op.conditions? = some cs)
    (x y : Except PlanError Scheme) : op.scheme x y = Binary.crossProduct.scheme x y := by
  cases op with
  | join condition => rfl
  | crossProduct => rfl
  | _ => cases h

namespace Plan

variable {p l r : Plan} {notes : Notes} {op : Binary} {cs : List Expr} {s t : Scheme} {table : Cells}
  {c : UInt64 × UInt64} {pairs : List (UInt64 × UInt64)}

/-- Requires that two columns agree, for each pair of a list in turn. -/
def addEquijoins (p : Plan) (table : Cells) (pairs : List (UInt64 × UInt64)) : Except PlanError Plan :=
  pairs.foldlM (fun q c => q.addEquijoin table c.1 c.2) p

theorem addEquijoins_cons (p : Plan) (table : Cells) (c : UInt64 × UInt64)
    (pairs : List (UInt64 × UInt64)) : p.addEquijoins table (c :: pairs) =
      p.addEquijoin table c.1 c.2 >>= fun q => q.addEquijoins table pairs := rfl

theorem addEquijoins_append (p : Plan) (table : Cells) (pre post : List (UInt64 × UInt64)) :
    p.addEquijoins table (pre ++ post) =
      p.addEquijoins table pre >>= fun q => q.addEquijoins table post :=
  List.foldlM_append

theorem joinInputs?_binary (h : op.conditions? = some cs) :
    (binary notes op l r).joinInputs? = some (l, r) := by
  cases op with
  | join condition => rfl
  | crossProduct => rfl
  | _ => cases h

theorem joinInputs?_eq_none
    (h : ∀ notes op l r, p = binary notes op l r → op.conditions? = none) : p.joinInputs? = none := by
  unfold joinInputs?
  split
  · cases h _ _ _ _ rfl
  · cases h _ _ _ _ rfl
  · rfl

section Inputs

variable (hl : l.scheme table = .ok s) (hr : r.scheme table = .ok t)

include hl hr

theorem checkEquijoin_eq (hop : op.conditions? = some cs) (i j : UInt64) :
    (binary notes op l r).checkEquijoin table i j =
      if Straddles s.size t.size (i, j) then .ok ()
      else .error (.equijoinColumns i j s.size (s.size + t.size)) := by
  have hiff : (decide (i.toNat < s.size + t.size) && decide (j.toNat < s.size + t.size) &&
      (decide (i.toNat < s.size) != decide (j.toNat < s.size))) = true ↔
        Straddles s.size t.size (i, j) := by
    rw [Bool.and_eq_true, Bool.and_eq_true, decide_eq_true_iff, decide_eq_true_iff, bne_iff_ne, ne_eq,
      decide_eq_decide, Straddles]
    dsimp only
    omega
  unfold checkEquijoin
  rw [joinInputs?_binary hop]
  dsimp only
  rw [hl, hr]
  exact if_congr hiff rfl rfl

theorem addEquijoin_of_straddles (hop : op.conditions? = some cs) (hc : Straddles s.size t.size c) :
    ∃ notes' e, (binary notes op l r).addEquijoin table c.1 c.2 =
        .ok (binary notes' (.join e) l r) ∧
      conjunction? (cs ++ [.eqCols c.1 c.2]) = some e := by
  unfold addEquijoin
  rw [checkEquijoin_eq hl hr hop, if_pos hc]
  cases op with
  | join condition =>
      obtain rfl := Option.some.inj hop
      exact ⟨_, _, rfl, rfl⟩
  | crossProduct =>
      obtain rfl := Option.some.inj hop
      exact ⟨_, _, rfl, rfl⟩
  | _ => cases hop

theorem addEquijoin_of_not_straddles (hop : op.conditions? = some cs)
    (hc : ¬ Straddles s.size t.size c) :
    (binary notes op l r).addEquijoin table c.1 c.2 =
      .error (.equijoinColumns c.1 c.2 s.size (s.size + t.size)) := by
  unfold addEquijoin
  rw [checkEquijoin_eq hl hr hop, if_neg hc]
  rfl

/-- Calls with pairs that have one column of each input leave the inputs and gather the conditions. -/
theorem addEquijoins_of_straddles (notes : Notes) (hop : op.conditions? = some cs)
    (hpairs : ∀ c ∈ pairs, Straddles s.size t.size c) :
    ∃ notes' op' cs', (binary notes op l r).addEquijoins table pairs = .ok (binary notes' op' l r) ∧
      op'.conditions? = some cs' ∧
      conjunction? cs' = conjunction? (cs ++ pairs.map (fun c => .eqCols c.1 c.2)) := by
  induction pairs generalizing notes op cs with
  | nil => exact ⟨notes, op, cs, rfl, hop, by rw [List.map_nil, List.append_nil]⟩
  | cons c pairs ih =>
      obtain ⟨hc, hpairs⟩ := List.forall_mem_cons.mp hpairs
      obtain ⟨notes₁, e, hstep, he⟩ := addEquijoin_of_straddles hl hr hop hc
      obtain ⟨notes₂, op₂, cs₂, hrun, hop₂, hcs₂⟩ := @ih (.join e) [e] notes₁ rfl hpairs
      refine ⟨notes₂, op₂, cs₂, ?_, hop₂, ?_⟩
      · rw [addEquijoins_cons, hstep]
        exact hrun
      · rw [hcs₂, List.map_cons, List.append_cons, conjunction?_append he]
        rfl

theorem addEquijoins_of_not_straddles (notes : Notes) (hop : op.conditions? = some cs)
    {pre : List (UInt64 × UInt64)} (hpre : ∀ c ∈ pre, Straddles s.size t.size c)
    (hc : ¬ Straddles s.size t.size c) (post : List (UInt64 × UInt64)) :
    (binary notes op l r).addEquijoins table (pre ++ c :: post) =
      .error (.equijoinColumns c.1 c.2 s.size (s.size + t.size)) := by
  obtain ⟨notes', op', cs', hrun, hop', -⟩ := addEquijoins_of_straddles hl hr notes hop hpre
  rw [addEquijoins_append, hrun]
  show (binary notes' op' l r).addEquijoins table (c :: post) = _
  rw [addEquijoins_cons, addEquijoin_of_not_straddles hl hr hop' hc]
  rfl

end Inputs

theorem straddles_or_first (n m : ℕ) (pairs : List (UInt64 × UInt64)) :
    (∀ c ∈ pairs, Straddles n m c) ∨
      ∃ pre c post, pairs = pre ++ c :: post ∧ (∀ x ∈ pre, Straddles n m x) ∧ ¬ Straddles n m c := by
  induction pairs with
  | nil => exact Or.inl (by simp)
  | cons c pairs ih =>
      by_cases hc : Straddles n m c
      · rcases ih with hall | ⟨pre, d, post, rfl, hpre, hd⟩
        · exact Or.inl (List.forall_mem_cons.mpr ⟨hc, hall⟩)
        · exact Or.inr ⟨c :: pre, d, post, rfl, List.forall_mem_cons.mpr ⟨hc, hpre⟩, hd⟩
      · exact Or.inr ⟨[], c, pairs, rfl, by simp, hc⟩

/-- **Conditions accumulate in the order in which they are given.** -/
theorem addEquijoins_conjoins (table : Cells) :
    (∀ notes op l r cs s t, op.conditions? = some cs → l.scheme table = .ok s →
      r.scheme table = .ok t → ∀ pairs,
        ((∃ q, (binary notes op l r).addEquijoins table pairs = .ok q) ↔
          ∀ c ∈ pairs, Straddles s.size t.size c) ∧
        (∀ e, (binary notes op l r).addEquijoins table pairs = .error e →
          ∃ pre c post, pairs = pre ++ c :: post ∧ (∀ x ∈ pre, Straddles s.size t.size x) ∧
            ¬ Straddles s.size t.size c ∧ e = .equijoinColumns c.1 c.2 s.size (s.size + t.size)) ∧
        (∀ q, (binary notes op l r).addEquijoins table pairs = .ok q → pairs ≠ [] →
          ∃ notes' e, q = binary notes' (.join e) l r ∧
            conjunction? (cs ++ pairs.map (fun c => .eqCols c.1 c.2)) = some e ∧
            q.scheme table = (binary notes op l r).scheme table)) ∧
      ∀ p : Plan, (∀ notes op l r, p = binary notes op l r → op.conditions? = none) →
        ∀ i j, p.addEquijoin table i j = .error (.unsupported .addEquijoin p.name) := by
  refine ⟨fun notes op l r cs s t hop hl hr pairs => ?_, fun p hp i j => ?_⟩
  · rcases straddles_or_first s.size t.size pairs with hall | ⟨pre, c, post, rfl, hpre, hc⟩
    · obtain ⟨notes', op', cs', hrun, hop', hcs'⟩ :=
        addEquijoins_of_straddles hl hr notes hop hall
      refine ⟨⟨fun _ => hall, fun _ => ⟨_, hrun⟩⟩, fun e he => ?_, fun q hq hne => ?_⟩
      · rw [hrun] at he
        cases he
      · rw [hrun] at hq
        obtain rfl := Except.ok.inj hq
        -- A product would have no condition, but there is a pair.
        cases op' with
        | join e =>
            obtain rfl := Option.some.inj hop'
            exact ⟨notes', e, rfl, hcs'.symm, (Binary.scheme_of_conditions? hop _ _).symm⟩
        | crossProduct =>
            obtain rfl := Option.some.inj hop'
            have hnil := conjunction?_eq_none.mp hcs'.symm
            exact absurd (List.map_eq_nil_iff.mp (List.append_eq_nil_iff.mp hnil).2) hne
        | _ => cases hop'
    · have hrun := addEquijoins_of_not_straddles hl hr notes hop hpre hc post
      refine ⟨⟨?_, fun hall => absurd (hall c (by simp)) hc⟩, fun e he => ?_, fun q hq _ => ?_⟩
      · rintro ⟨q, hq⟩
        rw [hrun] at hq
        cases hq
      · rw [hrun] at he
        exact ⟨pre, c, post, rfl, hpre, hc, (Except.error.inj he).symm⟩
      · rw [hrun] at hq
        cases hq
  · unfold addEquijoin checkEquijoin
    rw [joinInputs?_eq_none hp]
    rfl

/-- A relation without rows that has two columns. -/
def twoColumns : Plan := leaf {} (.emptyRelation ⟨[.named "a" .int, .named "b" .int]⟩)

/-- The pairs stand in both orders, and `$4` is one past the last column. -/
theorem addEquijoins_conjoins_twoColumns :
    ∃ notes, (binary {} .crossProduct twoColumns twoColumns).addEquijoins .empty [(0, 2), (3, 1)] =
        .ok (binary notes (.join (.binary .and (.eqCols 0 2) (.eqCols 3 1))) twoColumns twoColumns) ∧
      (∀ q, (binary {} .crossProduct twoColumns twoColumns).addEquijoins .empty
        [(0, 2), (0, 4), (0, 1)] ≠ .ok q) ∧
      twoColumns.addEquijoin .empty 0 2 = .error (.unsupported .addEquijoin "EmptyRelation") := by
  obtain ⟨hjoins, hothers⟩ := addEquijoins_conjoins .empty
  have hpairs := hjoins {} .crossProduct twoColumns twoColumns [] _ _ rfl rfl rfl
  obtain ⟨q, hq⟩ := (hpairs [(0, 2), (3, 1)]).1.mpr
    (List.forall_mem_cons.mpr ⟨by decide, List.forall_mem_singleton.mpr (by decide)⟩)
  obtain ⟨notes, e, rfl, he, -⟩ := (hpairs [(0, 2), (3, 1)]).2.2 q hq (by decide)
  obtain rfl := Option.some.inj he
  refine ⟨notes, hq, fun q hq => ?_, hothers twoColumns (by intro _ _ _ _ h; cases h) 0 2⟩
  exact absurd ((hpairs _).1.mp ⟨q, hq⟩ (0, 4) (by simp)) (by decide)

end Plan

end Planner
