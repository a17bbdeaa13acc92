import Planner.Proofs.Flow.Passes
import Planner.Proofs.Plan.Meaning

/-! # Simulating rewritten code

Code and a rewriting of it run side by side.  At each point of the code, before a node or at the end,
a relation `R` holds of the two environments, and the same has been emitted (`Linked`).  The relation
has to be kept by each node on its own (`Steps`): by a statement on the way to the next node, by a
test of a loop both on the way to the next node and on the way back.

Main statement: `runAll_rewrite`, if each node keeps the relation then both runs end or none does, and
if they end they are linked at the end. -/

namespace Planner.Flow

open Interpretation

universe u

variable {V : Type u}

/-! ### Linked runs -/

/-- Two runs that have emitted the same, with a relation between their environments. -/
structure Linked (Q : Env V → Env V → Prop) (s t : Running V) : Prop where
  emitted_eq : s.emitted = t.emitted
  env : Q s.env t.env

/-- Two runs that end linked, or both do not end. -/
abbrev EndLinked (Q : Env V → Env V → Prop) : Option (Running V) → Option (Running V) → Prop :=
  Option.Rel (Linked Q)

namespace EndLinked

variable {Q Q' : Env V → Env V → Prop} {x y : Option (Running V)}

theorem mono (h : EndLinked Q x y) (hQ : ∀ e e', Q e e' → Q' e e') : EndLinked Q' x y := by
  cases h with
  | none => exact .none
  | some hst => exact .some ⟨hst.emitted_eq, hQ _ _ hst.env⟩

theorem bind {f g : Running V → Option (Running V)} (h : EndLinked Q x y)
    (hfg : ∀ s t, Linked Q s t → EndLinked Q' (f s) (g t)) : EndLinked Q' (x.bind f) (y.bind g) := by
  cases h with
  | none => exact .none
  | some hst => exact hfg _ _ hst

theorem emitted_eq (h : EndLinked Q x y) : x.map Running.emitted = y.map Running.emitted := by
  cases h with
  | none => rfl
  | some hst => exact congrArg some hst.emitted_eq

/-- Two loops end linked if their bodies do and they go on together. -/
theorem repeatWhile {body body' : Running V → Option (Running V)} {again again' : Running V → Bool}
    (hbody : ∀ s t, Linked Q s t → EndLinked Q' (body s) (body' t))
    (hagain : ∀ s t, Linked Q' s t → again s = again' t)
    {Q'' : Env V → Env V → Prop} (hback : ∀ e e', Q' e e' → Q e e')
    (hout : ∀ e e', Q' e e' → Q'' e e') (rounds : ℕ) {s t : Running V} (h : Linked Q s t) :
    EndLinked Q'' (Interpretation.repeatWhile body again rounds s)
      (Interpretation.repeatWhile body' again' rounds t) := by
  induction rounds generalizing s t with
  | zero => exact .none
  | succ rounds ih =>
      refine (hbody s t h).bind (fun s t hst => ?_)
      rw [hagain s t hst]
      split_ifs
      · exact ih ⟨hst.emitted_eq, hback _ _ hst.env⟩
      · exact .some ⟨hst.emitted_eq, hout _ _ hst.env⟩

end EndLinked

/-! ### Code and its rewriting -/

theorem runAll_append (I : Interpretation V) (rounds : ℕ) (ps qs : List Plan) (s : Running V) :
    I.runAll rounds (ps ++ qs) s = (I.runAll rounds ps s).bind (I.runAll rounds qs) := by
  induction ps generalizing s with
  | nil => rfl
  | cons p rest ih =>
      rw [List.cons_append, runAll, runAll, Option.bind_assoc]
      exact congrArg _ (funext ih)

theorem runAll_singleton (I : Interpretation V) (rounds : ℕ) (p : Plan) (s : Running V) :
    I.runAll rounds [p] s = I.run rounds p s := by
  rw [runAll]
  cases I.run rounds p s <;> rfl

theorem run_loop (I : Interpretation V) (rounds : ℕ) (body : List Plan) (test : Plan)
    (s : Running V) : I.run rounds (Block.loop body test) s =
      Interpretation.repeatWhile (I.runAll rounds body) (fun t => I.again (I.eval t.env test))
        rounds s := by
  have hbody : I.run rounds (.nary {} .sequence body) = I.runAll rounds body := by
    funext t
    rw [run]
  rw [Block.loop, run, hbody]

namespace Code

/-- Runs of two pieces of code emit the same within any bound. -/
def EmitsAs (c : Code) (I : Interpretation V) (d : Code) : Prop :=
  ∀ rounds env, (I.runAll rounds c.plans ⟨env, []⟩).map Running.emitted =
    (I.runAll rounds d.plans ⟨env, []⟩).map Running.emitted

theorem EmitsAs.symm {I : Interpretation V} {c d : Code} (h : c.EmitsAs I d) : d.EmitsAs I c :=
  fun rounds env => (h rounds env).symm

theorem EmitsAs.trans {I : Interpretation V} {c d e : Code} (h : c.EmitsAs I d) (h' : d.EmitsAs I e) :
    c.EmitsAs I e :=
  fun rounds env => (h rounds env).trans (h' rounds env)

/-- The plans that a rewriting makes of a node. -/
def rewrittenPlans (f : Node → Option Node) (n : Node) : List Plan := ((f n).map Node.op).toList

theorem plans_rewrite_step (f : Node → Option Node) (n : Node) (rest : Code) :
    ((step n rest).rewrite f).plans = rewrittenPlans f n ++ (rest.rewrite f).plans := by
  rw [rewrite, rewrittenPlans]
  cases f n <;> rfl

/-- Each node of the code keeps the relation, where `l` lists the numbers of all nodes, also those
around the code. -/
structure Steps (I : Interpretation V) (rounds : ℕ) (R : Option ℕ → Env V → Env V → Prop)
    (f : Node → Option Node) (l : List ℕ) (c : Code) : Prop where
  statement : ∀ n ∈ c.steps, ∀ before behind, l = before ++ n.id :: behind →
    ∀ s t, Linked (R (some n.id)) s t →
      EndLinked (R behind.head?) (I.run rounds n.op s) (I.runAll rounds (rewrittenPlans f n) t)
  condition : ∀ n ∈ c.tests, ∀ e e', R (some n.id) e e' →
    I.eval e n.op = I.eval e' ((f n).getD n).op
  onward : ∀ n ∈ c.tests, ∀ before behind, l = before ++ n.id :: behind →
    ∀ e e', R (some n.id) e e' → R behind.head? e e'
  back : ∀ i j, ⟨i, j⟩ ∈ c.backs → ∀ e e', R (some i) e e' → R (some j) e e'

namespace Steps

variable {I : Interpretation V} {rounds : ℕ} {R : Option ℕ → Env V → Env V → Prop}
variable {f : Node → Option Node} {l : List ℕ} {body rest : Code} {n test : Node}

theorem tail_step (h : Steps I rounds R f l (step n rest)) : Steps I rounds R f l rest :=
  ⟨fun m hm => h.statement m (List.mem_cons_of_mem n hm), h.condition, h.onward, h.back⟩

theorem body_loop (h : Steps I rounds R f l (loop body test rest)) : Steps I rounds R f l body :=
  ⟨fun m hm => h.statement m (List.mem_append_left _ hm),
    fun m hm => h.condition m (List.mem_append_left _ hm),
    fun m hm => h.onward m (List.mem_append_left _ hm),
    fun i j hij => h.back i j (List.mem_append_left _ hij)⟩

theorem tail_loop (h : Steps I rounds R f l (loop body test rest)) : Steps I rounds R f l rest :=
  ⟨fun m hm => h.statement m (List.mem_append_right _ hm),
    fun m hm => h.condition m (List.mem_append_right _ (List.mem_cons_of_mem _ hm)),
    fun m hm => h.onward m (List.mem_append_right _ (List.mem_cons_of_mem _ hm)),
    fun i j hij => h.back i j (List.mem_append_right _ (List.mem_cons_of_mem _ hij))⟩

theorem test_mem (body : Code) (test : Node) (rest : Code) : test ∈ (loop body test rest).tests :=
  List.mem_append_right _ List.mem_cons_self

theorem back_mem (body : Code) (test : Node) (rest : Code) :
    ⟨test.id, header body test⟩ ∈ (loop body test rest).backs :=
  List.mem_append_right _ List.mem_cons_self

end Steps

/-- **Code and its rewriting run alike** if each node keeps the relation between the environments.
Here `ahead` lists the numbers of the nodes behind the code. -/
theorem runAll_rewrite {I : Interpretation V} {rounds : ℕ} {R : Option ℕ → Env V → Env V → Prop}
    {f : Node → Option Node} {l : List ℕ} {c : Code} (hc : Steps I rounds R f l c)
    {before ahead : List ℕ} (hl : l = before ++ (c.ids ++ ahead)) {s t : Running V}
    (hst : Linked (R (c.ids ++ ahead).head?) s t) :
    EndLinked (R ahead.head?) (I.runAll rounds c.plans s) (I.runAll rounds (c.rewrite f).plans t) := by
  induction c generalizing before ahead s t with
  | done => exact .some hst
  | step n rest ih =>
      rw [plans_rewrite_step, runAll_append, plans, runAll]
      have hfirst := hc.statement n List.mem_cons_self before (rest.ids ++ ahead) hl s t hst
      have hl' : l = (before ++ [n.id]) ++ (rest.ids ++ ahead) := by
        rw [hl, List.append_assoc]
        rfl
      exact hfirst.bind (fun s t hst => ih hc.tail_step hl' hst)
  | loop body test rest ihb ihr =>
      rw [ids_loop, List.append_assoc, List.cons_append] at hl hst
      rw [head?_append_cons] at hst
      -- One round runs from the header to the test, which leads back to the header or onward.
      have hbody : ∀ s t, Linked (R (some (header body test))) s t →
          EndLinked (R (some test.id)) (I.runAll rounds body.plans s)
            (I.runAll rounds (body.rewrite f).plans t) := by
        intro s t hst
        rw [← head?_append_cons body test (rest.ids ++ ahead)] at hst
        exact ihb hc.body_loop hl hst
      have htest : ∀ s t, Linked (R (some test.id)) s t → I.again (I.eval s.env test.op) =
          I.again (I.eval t.env ((f test).getD test).op) := by
        intro s t hst
        rw [hc.condition test (Steps.test_mem body test rest) _ _ hst.env]
      have hl' : l = (before ++ body.ids) ++ test.id :: (rest.ids ++ ahead) := by
        rw [hl, List.append_assoc]
      have hloop := EndLinked.repeatWhile hbody htest
        (hc.back test.id (header body test) (Steps.back_mem body test rest))
        (hc.onward test (Steps.test_mem body test rest) _ _ hl') rounds hst
      rw [rewrite, plans, plans, runAll, runAll, run_loop, run_loop]
      have hrest : l = (before ++ body.ids ++ [test.id]) ++ (rest.ids ++ ahead) := by
        rw [hl', List.append_assoc (before ++ body.ids)]
        rfl
      exact hloop.bind (fun s t hst => ihr hc.tail_loop hrest hst)

end Code

end Planner.Flow
