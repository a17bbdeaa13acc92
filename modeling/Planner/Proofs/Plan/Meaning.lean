import Planner.Proofs.Plan.Reads

/-! # What plans mean

An `Interpretation` gives every operator a function from the values of its inputs to its own value and
says of which values a loop goes on.  A plan then has a value in every environment of temporary
relations (`eval`), and a plan made of statements can be run (`run`): a `storeTemp` sets a temporary
relation, a `store` emits a key with a value, a `doWhile` runs its body and then again as long as the
value of its condition says so.  Runs are bounded by the number of rounds that each loop may take, and
a larger bound keeps what a run gave (`run_mono`).

A value depends on the environment only at what the plan reads (`eval_congr`), and substituting a plan
for a read is the same as assigning its value (`eval_substitute`).  `Equivalent` plans terminate in the
same environments and emit the same there. -/

namespace Planner

universe u

/-- Values for operators, and the values with which a loop goes on. -/
structure Interpretation (V : Type u) where
  leaf : Leaf → V
  unary : Unary → V → V
  binary : Binary → V → V → V
  nary : Nary → List V → V
  again : V → Bool

/-- The values of the temporary relations. -/
abbrev Env (V : Type u) := String → V

/-- What a run has assigned and emitted so far. -/
structure Running (V : Type u) where
  env : Env V
  emitted : List (RelationKey × V)

namespace Running

variable {V : Type u}

/-- Assigns a temporary relation. -/
def assign (s : Running V) (name : String) (v : V) : Running V :=
  { s with env := Function.update s.env name v }

/-- Emits a value for a key. -/
def emit (s : Running V) (key : RelationKey) (v : V) : Running V :=
  { s with emitted := s.emitted ++ [(key, v)] }

theorem env_assign_self (s : Running V) (name : String) (v : V) : (s.assign name v).env name = v := by
  simp [assign]

theorem env_assign_of_ne (s : Running V) {name x : String} (h : x ≠ name) (v : V) :
    (s.assign name v).env x = s.env x := by
  simp [assign, h]

end Running

namespace Interpretation

variable {V : Type u} (I : Interpretation V)

/-! ### Values -/

/-- The value of a leaf. -/
def readLeaf (env : Env V) : Leaf → V
  | .scanTemp name _ => env name
  | op => I.leaf op.bare

mutual

/-- The value of a plan. -/
def eval (env : Env V) : Plan → V
  | .leaf _ op => I.readLeaf env op
  | .unary _ op input => I.unary op.bare (eval env input)
  | .binary _ op left right => I.binary op (eval env left) (eval env right)
  | .nary _ op inputs => I.nary op (evalAll env inputs)

/-- The values of several plans. -/
def evalAll (env : Env V) : List Plan → List V
  | [] => []
  | p :: rest => eval env p :: evalAll env rest

end

theorem evalAll_eq_map (env : Env V) (ps : List Plan) : I.evalAll env ps = ps.map (I.eval env) := by
  induction ps with
  | nil => rfl
  | cons p rest ih => rw [evalAll, ih, List.map_cons]

theorem readLeaf_of_temp?_eq_none {env env' : Env V} {notes : Notes} {op : Leaf}
    (h : (Plan.leaf notes op).temp? = none) : I.readLeaf env op = I.readLeaf env' op := by
  cases op with
  | scanTemp name scheme => cases h
  | _ => rfl

theorem eval_of_temp? {env : Env V} {p : Plan} {name : String} (h : p.temp? = some name) :
    I.eval env p = env name := by
  unfold Plan.temp? at h
  split at h
  · obtain rfl := Option.some.inj h
    rfl
  · cases h

/-- The value of a plan with other inputs, in another environment. -/
theorem eval_withInputs {env env' : Env V} {p : Plan} {qs : List Plan}
    (hroot : ∀ name, p.temp? = some name → env name = env' name)
    (h : List.Forall₂ (fun p q => I.eval env p = I.eval env' q) p.inputs qs) :
    I.eval env p = I.eval env' (p.withInputs qs) := by
  cases p with
  | leaf notes op =>
      have hleaf : (Plan.leaf notes op).withInputs qs = .leaf notes op := rfl
      rw [hleaf]
      cases ht : (Plan.leaf notes op).temp? with
      | none => exact I.readLeaf_of_temp?_eq_none ht
      | some name => rw [I.eval_of_temp? ht, I.eval_of_temp? ht, hroot name ht]
  | unary notes op input =>
      obtain ⟨q, _, hq, hnil, rfl⟩ := List.forall₂_cons_left_iff.mp h
      obtain rfl := List.forall₂_nil_left_iff.mp hnil
      rw [Plan.withInputs, eval, eval, hq]
  | binary notes op left right =>
      obtain ⟨q, _, hq, hrest, rfl⟩ := List.forall₂_cons_left_iff.mp h
      obtain ⟨r, _, hr, hnil, rfl⟩ := List.forall₂_cons_left_iff.mp hrest
      obtain rfl := List.forall₂_nil_left_iff.mp hnil
      rw [Plan.withInputs, eval, eval, hq, hr]
  | nary notes op inputs =>
      have hvalues : inputs.map (I.eval env) = qs.map (I.eval env') := by
        rw [← List.forall₂_eq_eq_eq, List.forall₂_map_left_iff, List.forall₂_map_right_iff]
        exact h
      rw [Plan.withInputs, eval, eval, evalAll_eq_map, evalAll_eq_map, hvalues]

/-- The value depends on the environment only at what the plan reads. -/
theorem eval_congr {env env' : Env V} {p : Plan} (h : ∀ x ∈ p.temps, env x = env' x) :
    I.eval env p = I.eval env' p := by
  induction p using Plan.induction_inputs with
  | step p ih =>
      have hroot : ∀ name, p.temp? = some name → env name = env' name := fun name hname =>
        h name (Plan.mem_temps.mpr (Or.inl hname))
      have hinputs : ∀ q ∈ p.inputs, I.eval env q = I.eval env' q := fun q hq =>
        ih q hq (fun x hx => h x (Plan.mem_temps.mpr (Or.inr ⟨q, hq, hx⟩)))
      have hall := I.eval_withInputs hroot (List.forall₂_same.mpr hinputs)
      rw [Plan.withInputs_inputs] at hall
      exact hall

/-! ### Values of copies and substitutions -/

theorem eval_relinkRoot (env : Env V) (moves : List (CellId × CellId)) (p : Plan) :
    I.eval env (p.relinkRoot moves) = I.eval env p := by
  unfold Plan.relinkRoot
  split <;> rfl

theorem eval_relink (env : Env V) (moves : List (CellId × CellId)) (p : Plan) :
    I.eval env (p.relink moves) = I.eval env p := by
  induction p using Plan.induction_inputs with
  | step p ih =>
      rw [Plan.relink_eq, ← I.eval_relinkRoot env moves p]
      refine (I.eval_withInputs (fun _ _ => rfl) ?_).symm
      rw [Plan.inputs_relinkRoot, List.forall₂_map_right_iff]
      exact List.forall₂_same.mpr (fun q hq => (ih q hq).symm)

theorem eval_withNotes (env : Env V) (notes : Notes) (p : Plan) :
    I.eval env (p.withNotes notes) = I.eval env p := by
  cases p <;> rfl

theorem eval_copy (env : Env V) (p : Plan) (table : Cells) :
    I.eval env (p.copy table).1 = I.eval env p := by
  unfold Plan.copy
  rw [eval_withNotes, eval_relink]

/-- **Substituting a plan for a read** is the same as assigning its value. -/
theorem eval_substitute (env : Env V) (p : Plan) (name : String) (r : Plan) (table : Cells) :
    I.eval env (p.substitute name r table).1 =
      I.eval (Function.update env name (I.eval env r)) p := by
  refine (Plan.substitute_relates (R := fun p q =>
    I.eval (Function.update env name (I.eval env r)) p = I.eval env q) ?_ ?_ p table).symm
  · intro p table hread
    rw [eval_copy, I.eval_of_temp? hread, Function.update_self]
  · intro p qs hkeep hqs
    refine I.eval_withInputs (fun x hx => ?_) hqs
    have hne : x ≠ name := fun e => hkeep (e ▸ hx)
    exact Function.update_of_ne hne _ _

/-! ### Runs -/

/-- Runs a body, and again as long as wanted, but at most `rounds` times. -/
def repeatWhile {σ : Type u} (body : σ → Option σ) (again : σ → Bool) : ℕ → σ → Option σ
  | 0, _ => none
  | rounds + 1, s =>
    (body s).bind (fun t => if again t then repeatWhile body again rounds t else some t)

/-- What an operator does as a statement, given the value of its input. -/
def perform : Unary → V → Running V → Option (Running V)
  | .storeTemp name, v, s => some (s.assign name v)
  | .store key, v, s => some (s.emit key v)
  | _, _, _ => none

mutual

/-- Runs a plan made of statements, with at most `rounds` rounds in each loop. -/
def run (rounds : ℕ) : Plan → Running V → Option (Running V)
  | .unary _ op input, s => perform op (I.eval s.env input) s
  | .binary _ .doWhile body test, s =>
    repeatWhile (run rounds body) (fun t => I.again (I.eval t.env test)) rounds s
  | .nary _ .sequence statements, s => runAll rounds statements s
  | _, _ => none

/-- Runs several plans one after the other. -/
def runAll (rounds : ℕ) : List Plan → Running V → Option (Running V)
  | [], s => some s
  | p :: rest, s => (run rounds p s).bind (runAll rounds rest)

end

theorem repeatWhile_mono {σ : Type u} {body body' : σ → Option σ} {again : σ → Bool} {m n : ℕ}
    (hbody : ∀ s t, body s = some t → body' s = some t) (hmn : m ≤ n) {s t : σ}
    (h : repeatWhile body again m s = some t) : repeatWhile body' again n s = some t := by
  induction m generalizing n s with
  | zero => cases h
  | succ m ih =>
      obtain ⟨n, rfl⟩ := Nat.exists_eq_add_one_of_ne_zero (Nat.ne_of_gt (Nat.lt_of_lt_of_le m.succ_pos hmn))
      rw [repeatWhile, Option.bind_eq_some_iff] at h
      obtain ⟨s', hs', hrest⟩ := h
      rw [repeatWhile, hbody s s' hs', Option.bind_some]
      split_ifs at hrest ⊢ with hagain
      · exact ih (Nat.le_of_succ_le_succ hmn) hrest
      · exact hrest

theorem runAll_mono {m n : ℕ} {ps : List Plan}
    (hps : ∀ p ∈ ps, ∀ s t, I.run m p s = some t → I.run n p s = some t) {s t : Running V}
    (h : I.runAll m ps s = some t) : I.runAll n ps s = some t := by
  induction ps generalizing s with
  | nil => exact h
  | cons p rest ih =>
      rw [runAll, Option.bind_eq_some_iff] at h
      obtain ⟨s', hs', hrest⟩ := h
      rw [runAll, hps p List.mem_cons_self s s' hs', Option.bind_some]
      exact ih (fun q hq => hps q (List.mem_cons_of_mem p hq)) hrest

/-- A run that ended ends the same way if loops may take more rounds. -/
theorem run_mono {m n : ℕ} (hmn : m ≤ n) (p : Plan) :
    ∀ s t, I.run m p s = some t → I.run n p s = some t := by
  induction p using Plan.induction_inputs with
  | step p ih =>
      intro s t h
      cases p with
      | leaf notes op => cases h
      | unary notes op input => exact h
      | binary notes op body test =>
          cases op with
          | doWhile =>
              rw [run] at h ⊢
              exact repeatWhile_mono (ih body List.mem_cons_self) hmn h
          | _ => cases h
      | nary notes op statements =>
          cases op with
          | sequence =>
              rw [run] at h ⊢
              exact I.runAll_mono ih h
          | join conditions => cases h

/-! ### What can be seen of a run -/

/-- The run of a plan ends. -/
def Terminates (p : Plan) (env : Env V) : Prop := ∃ rounds, (I.run rounds p ⟨env, []⟩).isSome

/-- The run of a plan ends and has emitted `out`. -/
def Emits (p : Plan) (env : Env V) (out : List (RelationKey × V)) : Prop :=
  ∃ rounds, (I.run rounds p ⟨env, []⟩).map Running.emitted = some out

/-- Both runs end or none does, and if they end they have emitted the same. -/
def Equivalent (p q : Plan) : Prop :=
  ∀ env, (I.Terminates p env ↔ I.Terminates q env) ∧
    ∀ out out', I.Emits p env out → I.Emits q env out' → out = out'

theorem emits_mono {m n : ℕ} (hmn : m ≤ n) {p : Plan} {env : Env V} {out : List (RelationKey × V)}
    (h : (I.run m p ⟨env, []⟩).map Running.emitted = some out) :
    (I.run n p ⟨env, []⟩).map Running.emitted = some out := by
  obtain ⟨t, ht, rfl⟩ := Option.map_eq_some_iff.mp h
  rw [I.run_mono hmn p _ t ht]
  rfl

theorem Equivalent.emits {p q : Plan} (h : I.Equivalent p q) {env : Env V}
    {out : List (RelationKey × V)} (hq : I.Emits q env out) : I.Emits p env out := by
  have hends : I.Terminates q env := by
    obtain ⟨rounds, hrun⟩ := hq
    refine ⟨rounds, ?_⟩
    rw [← Option.isSome_map (f := Running.emitted), hrun]
    rfl
  obtain ⟨rounds, hsome⟩ := (h env).1.mpr hends
  obtain ⟨t, ht⟩ := Option.isSome_iff_exists.mp hsome
  have hp : I.Emits p env t.emitted := ⟨rounds, by rw [ht]; rfl⟩
  rw [← (h env).2 t.emitted out hp hq]
  exact hp

/-- Plans whose runs emit the same within any bound are equivalent. -/
theorem equivalent_of_run {p q : Plan}
    (h : ∀ rounds env, (I.run rounds p ⟨env, []⟩).map Running.emitted =
      (I.run rounds q ⟨env, []⟩).map Running.emitted) : I.Equivalent p q := by
  refine fun env => ⟨exists_congr (fun rounds => ?_), ?_⟩
  · have hsome := congrArg Option.isSome (h rounds env)
    rw [Option.isSome_map, Option.isSome_map] at hsome
    rw [hsome]
  · -- The two runs may have ended within different bounds; the larger one serves both.
    rintro out out' ⟨m, hm⟩ ⟨n, hn⟩
    have hp := I.emits_mono (Nat.le_max_left m n) hm
    have hq := I.emits_mono (Nat.le_max_right m n) hn
    rw [h, hq] at hp
    exact (Option.some.inj hp).symm

end Interpretation

end Planner
