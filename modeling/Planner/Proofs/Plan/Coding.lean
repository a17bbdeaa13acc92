import Planner.Plan.Coding
import Planner.Proofs.Expr.Coding

/-! # Reading back plans

A plan can be written if its keys can be read and its constants are finite (`Plan.IsWritable`).  What it
is written as is then read back as a plan with the same bare form (`Plan.reads_toTree`): one lemma for
each way in which the operators of one number of inputs are read, then one case per operator.  A plan
that is read from a value can be written (`Plan.keeps_isWritable`). -/

namespace Planner

open Planner.Data

/-! ### Keys and constants that can be written -/

/-- The keys can be read, and the fractions are finite. -/
structure Writable (keys : List RelationKey) (floats : List Binary64) : Prop where
  keys : ∀ k ∈ keys, ∃ s, RelationKey.parse? s = some k
  floats : ∀ x ∈ floats, x.isFinite = true

theorem Writable.nil : Writable [] [] := ⟨by simp, by simp⟩

theorem Writable.of_exprs {es : List Expr} (h : ∀ e ∈ es, ∀ x ∈ e.floats, x.isFinite = true) :
    Writable [] (es.flatMap Expr.floats) :=
  ⟨by simp, List.forall_mem_flatMap.mpr h⟩

theorem Writable.of_key {k : RelationKey} (h : ∃ s, RelationKey.parse? s = some k) : Writable [k] [] :=
  ⟨by simpa using h, by simp⟩

theorem writable_append {keys more : List RelationKey} {floats rest : List Binary64} :
    Writable (keys ++ more) (floats ++ rest) ↔ Writable keys floats ∧ Writable more rest := by
  constructor
  · rintro ⟨hkeys, hfloats⟩
    rw [List.forall_mem_append] at hkeys hfloats
    exact ⟨⟨hkeys.1, hfloats.1⟩, ⟨hkeys.2, hfloats.2⟩⟩
  · rintro ⟨h, hrest⟩
    exact ⟨List.forall_mem_append.mpr ⟨h.keys, hrest.keys⟩,
      List.forall_mem_append.mpr ⟨h.floats, hrest.floats⟩⟩

theorem writable_flatMap {α : Type} {keys : α → List RelationKey} {floats : α → List Binary64}
    {l : List α} :
    Writable (l.flatMap keys) (l.flatMap floats) ↔ ∀ a ∈ l, Writable (keys a) (floats a) := by
  constructor
  · rintro ⟨hkeys, hfloats⟩ a ha
    exact ⟨List.forall_mem_flatMap.mp hkeys a ha, List.forall_mem_flatMap.mp hfloats a ha⟩
  · intro h
    exact ⟨List.forall_mem_flatMap.mpr (fun a ha => (h a ha).keys),
      List.forall_mem_flatMap.mpr (fun a ha => (h a ha).floats)⟩

theorem Mapping.reads_toTree {σ : Type} {n : ℕ} (m : Mapping) :
    Reads n (ofTree : Tree → Decoder σ Mapping) m.toTree (· = m) := by
  refine Form.Fills.record true (fun j _ => ?_)
  refine ((Form.Fills.optional_text "name" m.name).both
    (Form.Fills.field m.expr.reads_toTree) (by simp)).map ?_
  rintro ⟨name, expr⟩ ⟨rfl, rfl⟩
  rfl

theorem Mapping.keeps_floats {σ : Type} : Keeps (ofTree : Tree → Decoder σ Mapping)
    (fun m => ∀ x ∈ m.expr.floats, x.isFinite = true) :=
  Form.Keeps.record (((Form.Keeps.trivial _).both (Form.Keeps.required Expr.keeps_floats)).map
    fun _ h => h.2) true

namespace Plan

variable {p q : Plan} {n : ℕ}

/-- The key at the root. -/
def key? : Plan → Option RelationKey
  | leaf _ (.scan key _) => some key
  | unary _ (.store key) _ => some key
  | _ => none

/-- The keys of a plan, in preorder. -/
def keys (p : Plan) : List RelationKey := p.preorder.filterMap key?

theorem keys_eq (p : Plan) : p.keys = p.key?.toList ++ p.inputs.flatMap keys :=
  filterMap_preorder_eq key? p

/-- The keys of the plan can be read, and its constants are finite. -/
def IsWritable (p : Plan) : Prop := Writable p.keys p.floats

/-- The same of the root alone. -/
def RootWritable (p : Plan) : Prop := Writable p.key?.toList (p.exprs.flatMap Expr.floats)

/-- A plan can be written if its root and its inputs can. -/
theorem isWritable_iff : p.IsWritable ↔ p.RootWritable ∧ ∀ q ∈ p.inputs, q.IsWritable := by
  rw [IsWritable, keys_eq, floats_eq, writable_append, writable_flatMap]
  rfl

theorem toTrees_eq_map (ps : List Plan) : toTrees ps = ps.map toTree := by
  induction ps with
  | nil => rfl
  | cons p rest ih => rw [toTrees, ih, List.map_cons]

theorem isPresent_toTree (p : Plan) : p.toTree.isPresent = true := by
  cases p with
  | leaf notes op => cases op <;> rfl
  | unary notes op input =>
      cases op with
      | collect server => cases server <;> rfl
      | _ => rfl
  | binary notes op left right =>
      cases op with
      | projectingJoin condition columns => cases columns <;> rfl
      | _ => rfl
  | nary notes op inputs => cases op <;> rfl

/-- Giving a fixpoint its cell leaves the bare form. -/
theorem bare_settle (p : Plan) (table : Cells) : (p.settle table).value.1.bare = p.bare := by
  unfold settle
  split
  · rfl
  · split <;> rfl
  · rfl

theorem gives_settled {d : Document} (h : q.bare = p.bare) :
    Decoder.Gives (settled q) d (fun r => r.bare = p.bare) :=
  fun s => ⟨_, _, rfl, (bare_settle q s.state.cells).trans h⟩

/-! ### Operators -/

section Operators

variable {σ δ α : Type} {plan : Tree → Decoder σ Plan} {form : Form σ δ α} {a : α}
  {fields : List (String × Tree)} {input left right : Plan} {t u : Tree}

theorem reads_leafOf {op : α → Leaf} (hform : ∀ m, Form.Fills m form fields (· = a)) :
    Reads n (leafOf form op) (.ofFields fields) (fun q => q.bare = (leaf {} (op a)).bare) := by
  refine Form.Fills.body true (fun m _ => (hform m).map ?_)
  rintro _ rfl
  rfl

theorem reads_unaryOf {op : α → Unary} (hform : ∀ m, Form.Fills m form fields (· = a))
    (hnames : "input" ∉ form.names)
    (hplan : ∀ m, n = m + 1 → Reads m plan t (fun q => q.bare = input.bare)) :
    Reads n (unaryOf plan form op) (.ofFields (fields ++ [("input", t)]))
      (fun q => q.bare = (unary {} (op a) input).bare) := by
  refine Form.Fills.body true (fun m hm =>
    ((hform m).both (Form.Fills.field (hplan m hm)) (by simpa using hnames)).map ?_)
  rintro ⟨_, q⟩ ⟨rfl, hq⟩
  rw [bare_unary, bare_unary, hq]

theorem reads_plainUnary (op : Unary)
    (hplan : ∀ m, n = m + 1 → Reads m plan t (fun q => q.bare = input.bare)) :
    Reads n (plainUnary plan op) (.ofFields [("input", t)])
      (fun q => q.bare = (unary {} op input).bare) := by
  refine Form.Fills.body true (fun m hm => (Form.Fills.field (hplan m hm)).map (fun q hq => ?_))
  rw [bare_unary, bare_unary, hq]

theorem fills_inputs {first second : String} (hnames : second ≠ first)
    (hleft : Reads n plan t (fun q => q.bare = left.bare))
    (hright : Reads n plan u (fun q => q.bare = right.bare)) :
    Form.Fills n ((Form.required first plan).both (.required second plan)) [(first, t), (second, u)]
      (fun q => q.1.bare = left.bare ∧ q.2.bare = right.bare) :=
  (Form.Fills.field hleft).both (Form.Fills.field hright) (by simpa using hnames)

theorem reads_binaryOf {op : α → Binary} (hform : ∀ m, Form.Fills m form fields (· = a))
    (hnames : "left" ∉ form.names ∧ "right" ∉ form.names)
    (hleft : ∀ m, n = m + 1 → Reads m plan t (fun q => q.bare = left.bare))
    (hright : ∀ m, n = m + 1 → Reads m plan u (fun q => q.bare = right.bare)) :
    Reads n (binaryOf plan form op) (.ofFields (fields ++ [("left", t), ("right", u)]))
      (fun q => q.bare = (binary {} (op a) left right).bare) := by
  refine Form.Fills.body true (fun m hm => ((hform m).both
    (fills_inputs (by decide) (hleft m hm) (hright m hm)) (by simpa using hnames)).map ?_)
  rintro ⟨_, q, r⟩ ⟨rfl, hq, hr⟩
  rw [bare_binary, bare_binary, hq, hr]

theorem reads_plainBinary {first second : String} (op : Binary) (hnames : second ≠ first)
    (hleft : ∀ m, n = m + 1 → Reads m plan t (fun q => q.bare = left.bare))
    (hright : ∀ m, n = m + 1 → Reads m plan u (fun q => q.bare = right.bare)) :
    Reads n (plainBinary plan first second op) (.ofFields [(first, t), (second, u)])
      (fun q => q.bare = (binary {} op left right).bare) := by
  refine Form.Fills.body true (fun m hm =>
    (fills_inputs hnames (hleft m hm) (hright m hm)).map ?_)
  rintro ⟨q, r⟩ ⟨hq, hr⟩
  rw [bare_binary, bare_binary, hq, hr]

theorem reads_refs (refs : List ColumnRef) :
    Reads n (refsOf : Tree → Decoder σ (List ColumnRef)) (refsTree refs) (· = refs) :=
  Reads.listOf_eq (fun _ _ r _ => r.reads_toTree)

theorem reads_groups (conditions : List (List UInt64)) :
    Reads n (Decoder.listOf (Decoder.listOf word64) : Tree → Decoder σ (List (List UInt64)))
      (.list (conditions.map (fun group => .list (group.map (fun p => .nat p.toNat)))))
      (· = conditions) :=
  Reads.listOf_eq (fun _ _ _ _ => Reads.listOf_eq (fun _ _ w _ => reads_word64 w))

/-- A list of plans is read back as one with the same bare forms. -/
theorem reads_plans {ps : List Plan}
    (h : ∀ m, n = m + 1 → ∀ p ∈ ps, Reads m plan p.toTree (fun q => q.bare = p.bare)) :
    Reads n (Decoder.listOf plan) (.list (toTrees ps)) (fun qs => qs.map bare = ps.map bare) := by
  rw [toTrees_eq_map]
  exact Reads.listOf_map h

end Operators

/-! ### Nodes -/

section Nodes

variable {σ : Type} {plan : Tree → Decoder σ Plan} {notes : Notes} {input left right : Plan}

/-- Reads a node whose inputs are read by `plan`. -/
def nodeOf (plan : Tree → Decoder σ Plan) : Tree → Decoder σ Plan :=
  Decoder.variant (fun name => .ofOption (ofName? name)) (ofBody plan)

/-- From trees with less levels the plan is read back, up to notes and cells. -/
def ReadsBelow (n : ℕ) (plan : Tree → Decoder σ Plan) (p : Plan) : Prop :=
  ∀ m < n, Reads m plan p.toTree (fun q => q.bare = p.bare)

theorem reads_leaf (op : Leaf) (hkey : ∀ k ∈ (leaf notes op).key?, ∃ s, RelationKey.parse? s = some k) :
    Reads n (nodeOf plan) (leaf notes op).toTree (fun q => q.bare = (leaf notes op).bare) := by
  cases op with
  | scan key scheme =>
      refine Reads.variant (fun m hm => reads_leafOf (a := (key, scheme)) fun j => ?_)
      refine ((Form.Fills.field (RelationKey.reads_toTree (hkey key rfl))).both
        (Form.Fills.field scheme.reads_toTree) (by simp)).imp ?_
      rintro ⟨_, _⟩ ⟨rfl, rfl⟩
      rfl
  | scanTemp name scheme =>
      refine Reads.variant (fun m hm => reads_leafOf (a := (name, scheme)) fun j => ?_)
      refine ((Form.Fills.field (Reads.text name)).both
        (Form.Fills.field scheme.reads_toTree) (by simp)).imp ?_
      rintro ⟨_, _⟩ ⟨rfl, rfl⟩
      rfl
  | emptyRelation scheme =>
      exact Reads.variant (fun m hm => reads_leafOf fun j => Form.Fills.field scheme.reads_toTree)
  | singleton => exact Reads.variant_string (fun d => Decoder.Gives.ofOption rfl rfl)
  | state name cell =>
      have htag : ofBody plan "state" = leafOf (.required "name" Decoder.text) (.state · none) := rfl
      refine Reads.variant (fun m hm => ?_)
      rw [htag]
      exact reads_leafOf (fun j => Form.Fills.field (Reads.text name))
  | fixpoint cell =>
      refine Reads.variant (fun m hm => Form.Fills.body true fun j hj =>
        Form.Fills.optional_none.map ?_)
      rintro _ rfl
      rfl

theorem reads_unary (op : Unary)
    (hkey : ∀ k ∈ (unary notes op input).key?, ∃ s, RelationKey.parse? s = some k)
    (hinput : ReadsBelow n plan input) :
    Reads n (nodeOf plan) (unary notes op input).toTree
      (fun q => q.bare = (unary notes op input).bare) := by
  have hplan : ∀ m, n = m + 1 → ∀ j, m = j + 1 →
      Reads j plan input.toTree (fun q => q.bare = input.bare) :=
    fun m hm j hj => hinput j (by omega)
  cases op with
  | select condition =>
      exact Reads.variant (fun m hm => reads_unaryOf
        (fun j => Form.Fills.field condition.reads_toTree) (by simp) (hplan m hm))
  | project columns =>
      exact Reads.variant (fun m hm => reads_unaryOf
        (fun j => Form.Fills.field (reads_refs columns)) (by simp) (hplan m hm))
  | apply mappings =>
      exact Reads.variant (fun m hm => reads_unaryOf
        (fun j => Form.Fills.field (Reads.listOf_eq fun _ _ m _ => m.reads_toTree)) (by simp)
        (hplan m hm))
  | groupBy columns =>
      exact Reads.variant (fun m hm => reads_unaryOf
        (fun j => Form.Fills.field (Reads.listOf_eq fun _ _ e _ => e.reads_toTree)) (by simp)
        (hplan m hm))
  | distinct => exact Reads.variant (fun m hm => reads_plainUnary .distinct (hplan m hm))
  | limit count =>
      exact Reads.variant (fun m hm => reads_unaryOf
        (fun j => Form.Fills.field (reads_word64 count)) (by simp) (hplan m hm))
  | shuffle columns =>
      exact Reads.variant (fun m hm => reads_unaryOf
        (fun j => Form.Fills.field (reads_refs columns)) (by simp) (hplan m hm))
  | collect server =>
      have htag : ofBody plan "collect" = unaryOf plan (.optional "server" (Decoder.nat (twoTo 32)))
          (fun server => .collect (server.map UInt32.ofNat)) := rfl
      cases server with
      | none =>
          refine Reads.variant (fun m hm => ?_)
          rw [htag]
          exact reads_unaryOf (fun j => Form.Fills.optional_none) (by simp) (hplan m hm)
      | some server =>
          have hserver (j : ℕ) : Form.Fills j (Form.optional "server" (Decoder.nat (twoTo 32)) :
              Form σ _ _) [("server", .nat server.toNat)] (· = some server.toNat) :=
            Form.Fills.optional_eq rfl (Reads.nat server.toNat_lt)
          have hcollect : Unary.collect ((some server.toNat).map UInt32.ofNat) =
              .collect (some server) := by
            rw [Option.map_some, UInt32.ofNat_toNat]
          refine Reads.variant (fun m hm => ?_)
          rw [htag]
          refine (reads_unaryOf hserver (by simp) (hplan m hm)).imp (fun q hq => ?_)
          rw [hq, hcollect]
          rfl
  | broadcast => exact Reads.variant (fun m hm => reads_plainUnary .broadcast (hplan m hm))
  | partitionBy columns =>
      exact Reads.variant (fun m hm => reads_unaryOf
        (fun j => Form.Fills.field (reads_refs columns)) (by simp) (hplan m hm))
  | store key =>
      exact Reads.variant (fun m hm => reads_unaryOf
        (fun j => Form.Fills.field (RelationKey.reads_toTree (hkey key rfl))) (by simp) (hplan m hm))
  | storeTemp name =>
      exact Reads.variant (fun m hm => reads_unaryOf
        (fun j => Form.Fills.field (Reads.text name)) (by simp) (hplan m hm))
  | fixpoint cell =>
      refine Reads.variant (fun m hm => Form.Fills.body true fun j hj =>
        (Form.Fills.optional input.isPresent_toTree (hplan m hm j hj)).map ?_)
      rintro _ ⟨q, rfl, hq⟩
      rw [bare_unary, bare_unary, hq]
      rfl

theorem reads_binary (op : Binary) (hleft : ReadsBelow n plan left) (hright : ReadsBelow n plan right) :
    Reads n (nodeOf plan) (binary notes op left right).toTree
      (fun q => q.bare = (binary notes op left right).bare) := by
  have hl : ∀ m, n = m + 1 → ∀ j, m = j + 1 →
      Reads j plan left.toTree (fun q => q.bare = left.bare) :=
    fun m hm j hj => hleft j (by omega)
  have hr : ∀ m, n = m + 1 → ∀ j, m = j + 1 →
      Reads j plan right.toTree (fun q => q.bare = right.bare) :=
    fun m hm j hj => hright j (by omega)
  have hplain {first second tag : String} (op : Binary) (hne : second ≠ first)
      (htag : ∀ plan : Tree → Decoder σ Plan, ofBody plan tag = plainBinary plan first second op) :
      Reads n (nodeOf plan) (variantTree tag [(first, left.toTree), (second, right.toTree)])
        (fun q => q.bare = (binary notes op left right).bare) := by
    refine Reads.variant (fun m hm => ?_)
    rw [htag]
    exact reads_plainBinary op hne (hl m hm) (hr m hm)
  cases op with
  | join condition =>
      exact Reads.variant (fun m hm => reads_binaryOf
        (fun j => Form.Fills.field condition.reads_toTree) (by simp) (hl m hm) (hr m hm))
  | crossProduct => exact hplain .crossProduct (by decide) (fun _ => rfl)
  | projectingJoin condition columns =>
      have htag : ofBody plan "projecting_join" = binaryOf plan
          ((Form.required "condition" Expr.ofTree).both (.optional "columns" refsOf))
          (fun a => .projectingJoin a.1 a.2) := rfl
      have hform {j : ℕ} {columns : Option (List ColumnRef)} {fields : List (String × Tree)}
          (h : Form.Fills j (Form.optional "columns" refsOf : Form σ _ _) fields (· = columns)) :
          Form.Fills j ((Form.required "condition" Expr.ofTree).both
            (Form.optional "columns" refsOf) : Form σ _ _)
            ([("condition", condition.toTree)] ++ fields) (· = (condition, columns)) := by
        refine ((Form.Fills.field condition.reads_toTree).both h (by simp)).imp ?_
        rintro ⟨_, _⟩ ⟨rfl, rfl⟩
        rfl
      cases columns with
      | none =>
          refine Reads.variant (fun m hm => ?_)
          rw [htag]
          exact reads_binaryOf (fun j => hform Form.Fills.optional_none) (by simp) (hl m hm) (hr m hm)
      | some columns =>
          have hcolumns (j : ℕ) : Form.Fills j (Form.optional "columns" refsOf : Form σ _ _)
              [("columns", refsTree columns)] (· = some columns) :=
            Form.Fills.optional_eq rfl (reads_refs columns)
          refine Reads.variant (fun m hm => ?_)
          rw [htag]
          exact reads_binaryOf (fun j => hform (hcolumns j)) (by simp) (hl m hm) (hr m hm)
  | union => exact hplain .union (by decide) (fun _ => rfl)
  | unionAll => exact hplain .unionAll (by decide) (fun _ => rfl)
  | intersection => exact hplain .intersection (by decide) (fun _ => rfl)
  | difference => exact hplain .difference (by decide) (fun _ => rfl)
  | doWhile => exact hplain .doWhile (by decide) (fun _ => rfl)

theorem reads_nary (op : Nary) {inputs : List Plan} (hinputs : ∀ p ∈ inputs, ReadsBelow n plan p) :
    Reads n (nodeOf plan) (nary notes op inputs).toTree
      (fun q => q.bare = (nary notes op inputs).bare) := by
  have hplans : ∀ m, n = m + 1 → ∀ j, m = j + 1 →
      Reads j (Decoder.listOf plan) (.list (toTrees inputs))
        (fun qs => qs.map bare = inputs.map bare) :=
    fun m hm j hj => reads_plans (fun i hi p hp => hinputs p hp i (by omega))
  cases op with
  | join conditions =>
      refine Reads.variant (fun m hm => Form.Fills.body true fun j hj =>
        ((Form.Fills.field (reads_groups conditions)).both (Form.Fills.field (hplans m hm j hj))
          (by simp)).map ?_)
      rintro ⟨_, qs⟩ ⟨rfl, hqs⟩
      rw [bare_nary, bare_nary, hqs]
  | sequence =>
      refine Reads.variant (fun m hm => Form.Fills.body true fun j hj =>
        (Form.Fills.field (hplans m hm j hj)).map ?_)
      intro qs hqs
      rw [bare_nary, bare_nary, hqs]

end Nodes

theorem reads_decode (p : Plan) {fuel : ℕ} (hp : p.IsWritable) (h : n < fuel) :
    Reads n (decode fuel) p.toTree (fun q => q.bare = p.bare) := by
  -- An input stands at least two levels further down, so one unit of fuel less is still enough.
  induction p using induction_inputs generalizing n fuel with
  | step p ih =>
      obtain ⟨k, rfl⟩ := Nat.exists_eq_add_of_lt h
      obtain ⟨hroot, hwritable⟩ := isWritable_iff.mp hp
      have hkey : ∀ key ∈ p.key?, ∃ s, RelationKey.parse? s = some key :=
        fun key hkey => hroot.keys key (Option.mem_toList.mpr hkey)
      have hinputs : ∀ q ∈ p.inputs, ReadsBelow n (decode (n + k)) q :=
        fun q hq m hm => ih q hq (hwritable q hq) (by omega)
      have hnode : Reads n (nodeOf (decode (n + k))) p.toTree (fun q => q.bare = p.bare) := by
        cases p with
        | leaf notes op => exact reads_leaf op hkey
        | unary notes op input => exact reads_unary op hkey (hinputs input (by simp [inputs]))
        | binary notes op left right =>
            exact reads_binary op (hinputs left (by simp [inputs])) (hinputs right (by simp [inputs]))
        | nary notes op ps => exact reads_nary op hinputs
      exact hnode.bind (fun q hq d => gives_settled hq)

/-- **A plan is read back as it was written, up to notes and cells.** -/
theorem reads_toTree (p : Plan) (hp : p.IsWritable) :
    Reads n ofTree p.toTree (fun q => q.bare = p.bare) :=
  fun d hfits _ => Decoder.Gives.document
    (reads_decode p hp (Nat.lt_succ_self d.levels) d hfits (Nat.le_refl d.levels))

/-! ### Plans read from values -/

/-- Giving a fixpoint its cell leaves its expressions and inputs. -/
theorem settle_parts (p : Plan) (table : Cells) :
    (p.settle table).value.1.key? = p.key? ∧ (p.settle table).value.1.exprs = p.exprs ∧
      (p.settle table).value.1.inputs = p.inputs := by
  unfold settle
  split
  · exact ⟨rfl, rfl, rfl⟩
  · split <;> exact ⟨rfl, rfl, rfl⟩
  · exact ⟨rfl, rfl, rfl⟩

theorem yields_settled (h : p.IsWritable) : Decoder.Yields (settled p) IsWritable := by
  intro d s q t hq
  obtain rfl := Option.some.inj (Prod.mk.inj hq).1
  obtain ⟨hkey, hexprs, hinputs⟩ := settle_parts p s.state.cells
  rw [isWritable_iff, RootWritable, hkey, hexprs, hinputs]
  exact isWritable_iff.mp h

section Values

variable {σ δ α : Type} {plan : Tree → Decoder σ Plan} {form : Form σ δ α} {I : δ → Prop} {P : α → Prop}

theorem keeps_leafOf {op : α → Leaf} (hform : form.Keeps I P)
    (hroot : ∀ a, P a → (leaf {} (op a)).RootWritable) : Keeps (leafOf form op) IsWritable :=
  Form.Keeps.body (hform.map fun a ha => isWritable_iff.mpr ⟨hroot a ha, by simp [inputs]⟩) true

variable (hplan : Keeps plan IsWritable)

include hplan

theorem keeps_unaryOf {op : α → Unary} (hform : form.Keeps I P)
    (hroot : ∀ a, P a → ∀ input, (unary {} (op a) input).RootWritable) :
    Keeps (unaryOf plan form op) IsWritable := by
  refine Form.Keeps.body ((hform.both (Form.Keeps.required hplan)).map ?_) true
  rintro ⟨a, input⟩ ⟨ha, hinput⟩
  exact isWritable_iff.mpr ⟨hroot a ha input, by simpa [inputs] using hinput⟩

theorem keeps_plainUnary {op : Unary} (hroot : ∀ input, (unary {} op input).RootWritable) :
    Keeps (plainUnary plan op) IsWritable := by
  refine Form.Keeps.body ((Form.Keeps.required hplan).map fun input hinput => ?_) true
  exact isWritable_iff.mpr ⟨hroot input, by simpa [inputs] using hinput⟩

theorem keeps_binaryOf {op : α → Binary} (hform : form.Keeps I P)
    (hroot : ∀ a, P a → ∀ left right, (binary {} (op a) left right).RootWritable) :
    Keeps (binaryOf plan form op) IsWritable := by
  refine Form.Keeps.body ((hform.both
    ((Form.Keeps.required hplan).both (Form.Keeps.required hplan))).map ?_) true
  rintro ⟨a, left, right⟩ ⟨ha, hleft, hright⟩
  exact isWritable_iff.mpr ⟨hroot a ha left right, by simpa [inputs] using ⟨hleft, hright⟩⟩

theorem keeps_plainBinary {first second : String} {op : Binary}
    (hroot : ∀ left right, (binary {} op left right).RootWritable) :
    Keeps (plainBinary plan first second op) IsWritable := by
  refine Form.Keeps.body (((Form.Keeps.required hplan).both (Form.Keeps.required hplan)).map ?_) true
  rintro ⟨left, right⟩ ⟨hleft, hright⟩
  exact isWritable_iff.mpr ⟨hroot left right, by simpa [inputs] using ⟨hleft, hright⟩⟩

theorem keeps_ofBody (tag : String) : Keeps (ofBody plan tag) IsWritable := by
  unfold ofBody
  -- The names in the order of `ofBody`; those without arguments that have two inputs come last.
  split
  case h_1 =>
    refine keeps_leafOf ((Form.Keeps.required RelationKey.keeps_parse?).both (Form.Keeps.trivial _)) ?_
    exact fun _ h => Writable.of_key h.1
  case h_2 => exact keeps_leafOf (Form.Keeps.trivial _) (fun _ _ => Writable.nil)
  case h_3 => exact keeps_leafOf (Form.Keeps.trivial _) (fun _ _ => Writable.nil)
  case h_4 =>
    have hleaf : (leaf {} .singleton).IsWritable := isWritable_iff.mpr ⟨Writable.nil, by simp [inputs]⟩
    exact (Keeps.trivial _).bind (fun _ _ => Decoder.Yields.pure hleaf)
  case h_5 => exact keeps_leafOf (Form.Keeps.trivial _) (fun _ _ => Writable.nil)
  case h_6 =>
    refine keeps_unaryOf hplan (Form.Keeps.required Expr.keeps_floats) (fun e h _ => ?_)
    exact Writable.of_exprs (by simpa [exprs, Unary.exprs] using h)
  case h_7 => exact keeps_unaryOf hplan (Form.Keeps.trivial _) (fun _ _ _ => Writable.nil)
  case h_8 =>
    refine keeps_unaryOf hplan (Form.Keeps.required (Keeps.listOf Mapping.keeps_floats))
      (fun ms h _ => ?_)
    exact Writable.of_exprs (List.forall_mem_map.mpr h)
  case h_9 =>
    refine keeps_unaryOf hplan (Form.Keeps.required (Keeps.listOf Expr.keeps_floats)) (fun es h _ => ?_)
    exact Writable.of_exprs h
  case h_10 => exact keeps_plainUnary hplan (fun _ => Writable.nil)
  case h_11 => exact keeps_unaryOf hplan (Form.Keeps.trivial _) (fun _ _ _ => Writable.nil)
  case h_12 => exact keeps_unaryOf hplan (Form.Keeps.trivial _) (fun _ _ _ => Writable.nil)
  case h_13 => exact keeps_unaryOf hplan (Form.Keeps.trivial _) (fun _ _ _ => Writable.nil)
  case h_14 => exact keeps_plainUnary hplan (fun _ => Writable.nil)
  case h_15 => exact keeps_unaryOf hplan (Form.Keeps.trivial _) (fun _ _ _ => Writable.nil)
  case h_16 =>
    refine keeps_unaryOf hplan (Form.Keeps.required RelationKey.keeps_parse?) (fun k h _ => ?_)
    exact Writable.of_key h
  case h_17 => exact keeps_unaryOf hplan (Form.Keeps.trivial _) (fun _ _ _ => Writable.nil)
  case h_18 =>
    refine Form.Keeps.body ((Form.Keeps.optional hplan).map ?_) true
    rintro (_ | body) hbody
    · exact isWritable_iff.mpr ⟨Writable.nil, by simp [inputs]⟩
    · exact isWritable_iff.mpr ⟨Writable.nil, by simpa [inputs] using hbody⟩
  case h_19 =>
    refine keeps_binaryOf hplan (Form.Keeps.required Expr.keeps_floats) (fun e h _ _ => ?_)
    exact Writable.of_exprs (by simpa [exprs, Binary.exprs] using h)
  case h_20 => exact keeps_plainBinary hplan (fun _ _ => Writable.nil)
  case h_21 =>
    refine keeps_binaryOf hplan ((Form.Keeps.required Expr.keeps_floats).both (Form.Keeps.trivial _)) ?_
    exact fun _ h _ _ => Writable.of_exprs (by simpa [exprs, Binary.exprs] using h.1)
  case h_27 =>
    refine Form.Keeps.body (((Form.Keeps.trivial _).both
      (Form.Keeps.required (Keeps.listOf hplan))).map ?_) true
    exact fun _ h => isWritable_iff.mpr ⟨Writable.nil, h.2⟩
  case h_28 =>
    refine Form.Keeps.body ((Form.Keeps.required (Keeps.listOf hplan)).map ?_) true
    exact fun _ h => isWritable_iff.mpr ⟨Writable.nil, h⟩
  case h_29 => exact fun _ _ => Decoder.Yields.fail
  all_goals exact keeps_plainBinary hplan (fun _ _ => Writable.nil)

end Values

theorem keeps_decode (fuel : ℕ) : Keeps (decode fuel) IsWritable := by
  induction fuel with
  | zero => exact fun _ _ => Decoder.Yields.fail
  | succ fuel ih =>
      have hname (name : String) : Decoder.Yields (.ofOption (ofName? name) : Decoder Trail Plan)
          IsWritable := by
        refine Decoder.Yields.ofOption (fun p hp => ?_)
        unfold ofName? at hp
        split at hp
        · obtain rfl := Option.some.inj hp
          exact isWritable_iff.mpr ⟨Writable.nil, by simp [inputs]⟩
        · cases hp
      exact (Keeps.variant hname (keeps_ofBody ih)).bind (fun p hp => yields_settled hp)

/-- **A plan that is read from a value can be written.** -/
theorem keeps_isWritable : Keeps ofTree IsWritable :=
  Keeps.document (fun d => keeps_decode (d.levels + 1))

end Plan

end Planner
