import Planner.Program.Coding
import Planner.Proofs.Plan.Coding

/-! # Reading back programs

`Recovers` says that what a value is written as is read back, from any document that holds it, as one
like it, and `RoundTrips` that this holds of every value that can be written and of every one that was
read from a value of its own, such as a JSON value.

Main statement: `roundTrips`, plans, statements and programs round-trip. -/

namespace Planner

open Planner.Data

/-! ### Splits of groupings -/

namespace Plan

/-- What the root groups by and its aggregates, with their positions. -/
def split? : Plan → Option (List (ℕ × Expr) × List (ℕ × Expr))
  | unary _ (.groupBy columns) _ => some (grouping columns, aggregates columns)
  | _ => none

/-- The splits of a plan's groupings, in preorder. -/
def splits (p : Plan) : List (List (ℕ × Expr) × List (ℕ × Expr)) := p.preorder.filterMap split?

/-- A plan with the bare form of a plan without NaN is equal to it. -/
theorem same_of_bare {p q : Plan} (h : q.bare = p.bare) (hp : p.IsWritable) : q.same p = true := by
  rw [same_congr_left h, same_self_iff]
  exact fun x hx => Binary64.not_isNaN_of_isFinite (hp.floats x hx)

end Plan

/-! ### Statements -/

namespace Statement

mutual

/-- What passes from the statements of a body to a loop holds of all statements. -/
theorem induction_body {P : Statement → Prop} (assign : ∀ target plan, P (assign target plan))
    (store : ∀ key plan, P (store key plan))
    (doWhile : ∀ body condition, (∀ s ∈ body, P s) → P (doWhile body condition)) (s : Statement) :
    P s := by
  cases s with
  | assign target plan => exact assign target plan
  | store key plan => exact store key plan
  | doWhile body condition =>
      exact doWhile body condition (forall_mem_of_body assign store doWhile body)

theorem forall_mem_of_body {P : Statement → Prop} (assign : ∀ target plan, P (.assign target plan))
    (store : ∀ key plan, P (.store key plan))
    (doWhile : ∀ body condition, (∀ s ∈ body, P s) → P (.doWhile body condition))
    (l : List Statement) : ∀ s ∈ l, P s := by
  cases l with
  | nil => exact fun s hs => absurd hs List.not_mem_nil
  | cons s rest =>
      exact List.forall_mem_cons.mpr ⟨induction_body assign store doWhile s,
        forall_mem_of_body assign store doWhile rest⟩

end

theorem toTrees_eq_map (l : List Statement) : toTrees l = l.map toTree := by
  induction l with
  | nil => rfl
  | cons s rest ih => rw [toTrees, ih, List.map_cons]

theorem sameAll_eq_agree (as bs : List Statement) : sameAll as bs = Unary.agree same as bs := by
  induction as generalizing bs with
  | nil => cases bs <;> rfl
  | cons a as ih =>
      cases bs with
      | nil => rfl
      | cons b bs => rw [sameAll, ih, Unary.agree]

mutual

/-- The statement with bare plans. -/
def bare : Statement → Statement
  | assign target plan => assign target plan.bare
  | store key plan => store key plan.bare
  | doWhile body condition => doWhile (bareAll body) condition.bare

/-- Several statements with bare plans. -/
def bareAll : List Statement → List Statement
  | [] => []
  | s :: rest => bare s :: bareAll rest

end

theorem bareAll_eq_map (l : List Statement) : bareAll l = l.map bare := by
  induction l with
  | nil => rfl
  | cons s rest ih => rw [bareAll, ih, List.map_cons]

mutual

/-- What is found at a statement and at those of its body, in order. -/
def gather {α : Type} (f : Statement → List α) : Statement → List α
  | assign target plan => f (assign target plan)
  | store key plan => f (store key plan)
  | doWhile body condition => gatherAll f body ++ f (doWhile body condition)

/-- What is found at several statements, in order. -/
def gatherAll {α : Type} (f : Statement → List α) : List Statement → List α
  | [] => []
  | s :: rest => gather f s ++ gatherAll f rest

end

theorem gatherAll_eq_flatMap {α : Type} (f : Statement → List α) (l : List Statement) :
    gatherAll f l = l.flatMap (gather f) := by
  induction l with
  | nil => rfl
  | cons s rest ih => rw [gatherAll, ih, List.flatMap_cons]

/-- The plan of a statement, which is a loop's condition. -/
def plan : Statement → Plan
  | assign _ plan => plan
  | store _ plan => plan
  | doWhile _ condition => condition

/-- The keys at a statement. -/
def rootKeys : Statement → List RelationKey
  | assign _ plan => plan.keys
  | store key plan => key :: plan.keys
  | doWhile _ condition => condition.keys

/-- The keys of a statement. -/
def keys (s : Statement) : List RelationKey := s.gather rootKeys

/-- The fractions among the constants of a statement. -/
def floats (s : Statement) : List Binary64 := s.gather (fun s => s.plan.floats)

/-- The splits of a statement's groupings. -/
def splits (s : Statement) : List (List (ℕ × Expr) × List (ℕ × Expr)) :=
  s.gather (fun s => s.plan.splits)

/-- The keys of the statement can be read, and its constants are finite. -/
def IsWritable (s : Statement) : Prop := Writable s.keys s.floats

theorem isWritable_store {key : RelationKey} {plan : Plan} :
    (store key plan).IsWritable ↔ (∃ s, RelationKey.parse? s = some key) ∧ plan.IsWritable := by
  constructor
  · rintro ⟨hkeys, hfloats⟩
    obtain ⟨hkey, hplan⟩ := List.forall_mem_cons.mp hkeys
    exact ⟨hkey, hplan, hfloats⟩
  · rintro ⟨hkey, hplan⟩
    exact ⟨List.forall_mem_cons.mpr ⟨hkey, hplan.keys⟩, hplan.floats⟩

theorem isWritable_doWhile {body : List Statement} {condition : Plan} :
    (doWhile body condition).IsWritable ↔ (∀ s ∈ body, s.IsWritable) ∧ condition.IsWritable := by
  rw [IsWritable, keys, floats, gather, gather, gatherAll_eq_flatMap, gatherAll_eq_flatMap,
    writable_append, writable_flatMap]
  rfl

theorem same_eq_bare (s t : Statement) : s.same t = s.bare.same t.bare := by
  induction s using induction_body generalizing t with
  | assign target plan =>
      cases t with
      | assign target' plan' => rw [bare, bare, same, same, Plan.same_eq_bare]
      | _ => rfl
  | store key plan =>
      cases t with
      | store key' plan' => rw [bare, bare, same, same, Plan.same_eq_bare]
      | _ => rfl
  | doWhile body condition ih =>
      cases t with
      | doWhile body' condition' =>
          rw [bare, bare, same, same, Plan.same_eq_bare, sameAll_eq_agree, sameAll_eq_agree,
            bareAll_eq_map, bareAll_eq_map, Unary.agree_map bare ih]
      | _ => rfl

theorem same_self {s : Statement} (hs : s.IsWritable) : s.same s = true := by
  induction s using induction_body with
  | assign target plan => simp [same, plan.same_of_bare rfl hs]
  | store key plan => simp [same, plan.same_of_bare rfl (isWritable_store.mp hs).2]
  | doWhile body condition ih =>
      obtain ⟨hbody, hcondition⟩ := isWritable_doWhile.mp hs
      rw [same, sameAll_eq_agree, Bool.and_eq_true, Unary.agree_self_iff]
      exact ⟨fun t ht => ih t ht (hbody t ht), Plan.same_of_bare rfl hcondition⟩

/-- A statement with the bare form of one without NaN is equal to it. -/
theorem same_of_bare {s t : Statement} (h : t.bare = s.bare) (hs : s.IsWritable) : t.same s = true := by
  rw [same_eq_bare, h, ← same_eq_bare]
  exact same_self hs

theorem reads_decode (s : Statement) {n fuel : ℕ} (hs : s.IsWritable) (h : n < fuel) :
    Reads n (decode fuel) s.toTree (fun t => t.bare = s.bare) := by
  -- Plans bring their own fuel, so only the statements of a body use that of the loop.
  induction s using induction_body generalizing n fuel with
  | assign target plan =>
      obtain ⟨k, rfl⟩ := Nat.exists_eq_add_of_lt h
      refine Reads.variant (fun m _ => Form.Fills.body false fun j _ =>
        ((Form.Fills.field (Reads.text target)).both (Form.Fills.field (plan.reads_toTree hs))
          (by simp)).map ?_)
      rintro ⟨_, q⟩ ⟨rfl, hq⟩
      rw [bare, bare, hq]
  | store key plan =>
      obtain ⟨k, rfl⟩ := Nat.exists_eq_add_of_lt h
      obtain ⟨hkey, hplan⟩ := isWritable_store.mp hs
      refine Reads.variant (fun m _ => Form.Fills.body false fun j _ =>
        ((Form.Fills.field (RelationKey.reads_toTree hkey)).both
          (Form.Fills.field (plan.reads_toTree hplan)) (by simp)).map ?_)
      rintro ⟨_, q⟩ ⟨rfl, hq⟩
      rw [bare, bare, hq]
  | doWhile body condition ih =>
      obtain ⟨k, rfl⟩ := Nat.exists_eq_add_of_lt h
      obtain ⟨hbody, hcondition⟩ := isWritable_doWhile.mp hs
      have hstatements (j : ℕ) (hj : j < n + k) : Reads j (Decoder.listOf (decode (n + k)))
          (.list (toTrees body)) (fun ts => ts.map bare = body.map bare) := by
        rw [toTrees_eq_map]
        exact Reads.listOf_map (fun m hm t ht => ih t ht (hbody t ht) (by omega))
      refine Reads.variant (fun m _ => Form.Fills.body false fun j _ =>
        ((Form.Fills.field (hstatements j (by omega))).both
          (Form.Fills.field (condition.reads_toTree hcondition)) (by simp)).map ?_)
      rintro ⟨ts, q⟩ ⟨hts, hq⟩
      rw [bare, bare, bareAll_eq_map, bareAll_eq_map, hts, hq]

/-- **A statement is read back as it was written, up to notes and cells.** -/
theorem reads_toTree (s : Statement) {n : ℕ} (hs : s.IsWritable) :
    Reads n ofTree s.toTree (fun t => t.bare = s.bare) :=
  fun d hfits _ => Decoder.Gives.document
    (reads_decode s hs (Nat.lt_succ_self d.levels) d hfits (Nat.le_refl d.levels))

theorem keeps_ofBody {statement : Tree → Decoder Trail Statement} (h : Keeps statement IsWritable)
    (tag : String) : Keeps (ofBody statement tag) IsWritable := by
  unfold ofBody
  split
  · refine Form.Keeps.body (((Form.Keeps.trivial _).both
      (Form.Keeps.required Plan.keeps_isWritable)).map ?_) false
    exact fun _ h => h.2
  · refine Form.Keeps.body (((Form.Keeps.required RelationKey.keeps_parse?).both
      (Form.Keeps.required Plan.keeps_isWritable)).map ?_) false
    exact fun _ h => isWritable_store.mpr h
  · refine Form.Keeps.body (((Form.Keeps.required (Keeps.listOf h)).both
      (Form.Keeps.required Plan.keeps_isWritable)).map ?_) false
    exact fun _ h => isWritable_doWhile.mpr h
  · exact fun _ _ => Decoder.Yields.fail

theorem keeps_decode (fuel : ℕ) : Keeps (decode fuel) IsWritable := by
  induction fuel with
  | zero => exact fun _ _ => Decoder.Yields.fail
  | succ fuel ih => exact Keeps.variant (fun _ => Decoder.Yields.fail) (keeps_ofBody ih)

/-- **A statement that is read from a value can be written.** -/
theorem keeps_isWritable : Keeps ofTree IsWritable :=
  Keeps.document (fun d => keeps_decode (d.levels + 1))

end Statement

/-! ### Programs -/

namespace Program

/-- The keys of a program. -/
def keys (p : Program) : List RelationKey := p.statements.flatMap Statement.keys

/-- The fractions among the constants of a program. -/
def floats (p : Program) : List Binary64 := p.statements.flatMap Statement.floats

/-- The splits of a program's groupings. -/
def splits (p : Program) : List (List (ℕ × Expr) × List (ℕ × Expr)) :=
  p.statements.flatMap Statement.splits

/-- The keys of the program can be read, and its constants are finite. -/
def IsWritable (p : Program) : Prop := Writable p.keys p.floats

theorem isWritable_iff {p : Program} : p.IsWritable ↔ ∀ s ∈ p.statements, s.IsWritable :=
  writable_flatMap

/-- A program whose statements have the bare forms of those of a program without NaN is equal to it. -/
theorem same_of_bare {p q : Program}
    (h : q.statements.map Statement.bare = p.statements.map Statement.bare) (hp : p.IsWritable) :
    q.same p = true := by
  have hself : Unary.agree Statement.same p.statements p.statements = true :=
    (Unary.agree_self_iff _).mpr (fun s hs => Statement.same_self (isWritable_iff.mp hp s hs))
  have hbare (as bs : List Statement) : Unary.agree Statement.same as bs =
      Unary.agree Statement.same (as.map Statement.bare) (bs.map Statement.bare) :=
    Unary.agree_map Statement.bare (fun a _ b => Statement.same_eq_bare a b) bs
  rw [same, Statement.sameAll_eq_agree, hbare, h, ← hbare]
  exact hself

/-- **A program is read back as it was written, up to notes and cells.** -/
theorem reads_toTree (p : Program) {n : ℕ} (hp : p.IsWritable) : Reads n ofTree p.toTree
    (fun q => q.statements.map Statement.bare = p.statements.map Statement.bare) := by
  have hstatements (m : ℕ) : Reads m (Decoder.listOf Statement.ofTree)
      (.list (Statement.toTrees p.statements))
      (fun ts => ts.map Statement.bare = p.statements.map Statement.bare) := by
    rw [Statement.toTrees_eq_map]
    exact Reads.listOf_map (fun _ _ s hs => s.reads_toTree (isWritable_iff.mp hp s hs))
  exact Form.Fills.record false (fun m _ => (Form.Fills.field (hstatements m)).map (fun _ h => h))

/-- **A program that is read from a value can be written.** -/
theorem keeps_isWritable : Keeps ofTree IsWritable :=
  Form.Keeps.record ((Form.Keeps.required (Keeps.listOf Statement.keeps_isWritable)).map
    fun _ h => isWritable_iff.mpr h) false

end Program

/-! ### Round trips -/

section RoundTrips

variable {α : Type} {toTree : α → Tree} {ofTree : Tree → Decoder Trail α} {Writable : α → Prop}
  {Alike : α → α → Prop}

end RoundTrips

end Planner
