import Planner.Proofs.Plan.Firings

/-! # Applying rules

A rule descends into the inputs of what it put in place of a node, so what it does to a plan is a
matter of what came out and not of what went in.  A rule that makes no plan larger is done with every
plan, since what it descends into is smaller than the node it was used at (`exists_applies_of_contracts`).

Main statement: `applyEach_keeps_schemes`, rules that make no plan larger are done with every plan, and if
they keep the schemes of nodes and what the states around them read, they keep the scheme of the plan.
The same plan comes out with a log, unless a rule takes notice of what the log keeps.  States set the
limit (`applyEach_detaches_state`): a rule may drop a fixpoint, and a state elsewhere in the plan that
reads it loses its scheme. -/

namespace Planner

open Plan

/-! ### Plans without states -/

namespace Plan

variable {p : Plan}

/-- Whether the root is a state. -/
def isState : Plan → Bool
  | leaf _ (.state _ _) => true
  | _ => false

/-- No node of the plan is a state. -/
def StateFree (p : Plan) : Prop := ∀ q ∈ p.preorder, q.isState = false

theorem stateFree_iff : p.StateFree ↔ p.isState = false ∧ ∀ q ∈ p.inputs, q.StateFree := by
  rw [StateFree, preorder_eq, List.forall_mem_cons, List.forall_mem_flatMap]
  rfl

theorem stateFree_leaf (notes : Notes) {op : Leaf} (h : (leaf notes op).isState = false) :
    (leaf notes op).StateFree :=
  stateFree_iff.mpr ⟨h, fun _ hq => absurd hq List.not_mem_nil⟩

theorem isState_withInputs (p : Plan) (qs : List Plan) : (p.withInputs qs).isState = p.isState := by
  unfold withInputs
  split <;> rfl

theorem StateFree.detached (hp : p.StateFree) : p.detached = true := by
  induction p using induction_inputs with
  | step p ih =>
      obtain ⟨hroot, hinputs⟩ := stateFree_iff.mp hp
      refine detached_iff.mpr ⟨?_, fun q hq => ih q hq (hinputs q hq)⟩
      unfold stateCell?
      split
      · cases hroot
      · rfl

theorem hereditary_stateFree : Hereditary StateFree where
  singleton := stateFree_leaf {} rfl
  input hp hq := (stateFree_iff.mp hp).2 _ hq
  withInputs {p qs} hp hlen hqs := by
    rw [stateFree_iff, isState_withInputs, inputs_withInputs hlen]
    exact ⟨(stateFree_iff.mp hp).1, hqs⟩

end Plan

variable {σ : Type} {rule : Rule σ} {rules : List (Rule σ)} {others : List CellId} {D : Plan → Prop}
  {p q : Plan} {w u v : Workspace σ} {fs : List (Firing σ)}

/-- Around a node of a plan without states there is none that could read anything else. -/
theorem Firing.Sound.quiet {f : Firing σ} (h : f.Sound StateFree) : f.Quiet :=
  fun p hp k hk => absurd hk (not_mem_stateCells_of_detached (h.around p hp).detached k)

namespace Rule

/-! ### Rules that are done -/

/-- On the plans of a class, the rule gives plans of the class that are not larger. -/
def Contracts (rule : Rule σ) (D : Plan → Prop) : Prop :=
  ∀ held p w, w.Tidy (held ++ p.cells) → D p →
    D (rule.put held p w).1 ∧ (rule.put held p w).1.size ≤ p.size

theorem Contracts.put (h : rule.Contracts D) (held : List CellId) (p : Plan) (w : Workspace σ)
    (hw : w.Tidy (held ++ p.cells)) (hp : D p) : D (rule.put held p w).1 :=
  (h held p w hw hp).1

theorem sound_root (hp : D p) (hw : w.Tidy (others ++ p.cells)) :
    Firing.Sound D ⟨rule, others, [], p, w⟩ :=
  ⟨by rwa [Firing.held, List.flatMap_nil, List.append_nil], hp, List.forall_mem_nil _⟩

theorem Contracts.sound (hD : Hereditary D) (hrule : rule.Contracts D)
    (h : Applies rule others [] p w fs q v) (hp : D p) (hw : w.Tidy (others ++ p.cells)) :
    (D q ∧ v.Tidy (others ++ q.cells)) ∧ ∀ f ∈ fs, f.rule = rule ∧ f.Sound D := by
  have := sound_of_applies hD hrule.put h (sound_root hp hw)
  rwa [List.flatMap_nil, List.append_nil] at this

theorem exists_appliesInputs (hD : Hereditary D) (hrule : rule.Contracts D) {todo : List Plan}
    (h : ∀ p ∈ todo, ∀ around w, Firing.Sound D ⟨rule, others, around, p, w⟩ →
      ∃ fs q v, Applies rule others around p w fs q v)
    {around done : List Plan} (hq : SoundInputs D others around q done todo w) :
    ∃ fs q' v, AppliesInputs rule others around q done todo w fs q' v := by
  induction todo generalizing done w with
  | nil => exact ⟨[], _, w, .nil⟩
  | cons p rest ih =>
      obtain ⟨fs, r, u, hp⟩ := h p List.mem_cons_self _ w (hq.head hD)
      obtain ⟨⟨hr, hu⟩, -⟩ := sound_of_applies hD hrule.put hp (hq.head hD)
      obtain ⟨gs, q', v, hrest⟩ := ih (fun q hq => h q (List.mem_cons_of_mem p hq)) (hq.tail hD hr hu)
      exact ⟨fs ++ gs, q', v, .cons hp hrest⟩

/-- A rule that does not make plans larger is done with every plan: what it descends into is smaller
than the node it was used at. -/
theorem exists_applies_of_contracts (hD : Hereditary D) (hrule : rule.Contracts D)
    {around : List Plan} (hp : Firing.Sound D ⟨rule, others, around, p, w⟩) :
    ∃ fs q v, Applies rule others around p w fs q v := by
  induction hn : p.size using Nat.strongRecOn generalizing around p w with
  | ind n ih =>
      subst hn
      obtain ⟨hr, hsize⟩ := hrule _ _ _ hp.tidy hp.node
      rcases hput : rule.put (others ++ around.flatMap cells) p w with ⟨r, u⟩
      rw [Firing.held, hput] at hr hsize
      have hinputs : ∀ q ∈ r.inputs, ∀ around w, Firing.Sound D ⟨rule, others, around, q, w⟩ →
          ∃ fs q' v, Applies rule others around q w fs q' v := by
        intro q hq around w hsound
        exact ih q.size (Nat.lt_of_lt_of_le (size_lt_of_mem_inputs hq) hsize) hsound rfl
      obtain ⟨fs, q, v, hrun⟩ := exists_appliesInputs hD hrule hinputs (.start hput hr hp.around)
      exact ⟨_, q, v, .node hput hrun⟩

/-! ### Rules one after the other -/

/-- Applying each rule of a list in turn, with all the firings in order. -/
inductive Runs (others : List CellId) :
    List (Rule σ) → Plan → Workspace σ → List (Firing σ) → Plan → Workspace σ → Prop
  | nil {p : Plan} {w : Workspace σ} : Runs others [] p w [] p w
  | cons {rule : Rule σ} {rules : List (Rule σ)} {p q r : Plan} {w u v : Workspace σ}
      {fs gs : List (Firing σ)} :
      Applies rule others [] p w fs r u → Runs others rules r u gs q v →
        Runs others (rule :: rules) p w (fs ++ gs) q v

theorem applyEach_cons (rule : Rule σ) (rules : List (Rule σ)) (others : List CellId) (p : Plan)
    (w : Workspace σ) : applyEach (rule :: rules) others p w =
      (rule.apply others [] p w).bind (fun r => applyEach rules others r.1 r.2) := rfl

theorem Runs.applyEach_eq (h : Runs others rules p w fs q v) :
    applyEach rules others p w = some (q, v) := by
  induction h with
  | nil => rfl
  | cons hrule _ ih => rw [applyEach_cons, apply_of_applies hrule, Option.bind_some, ih]

theorem exists_runs (h : applyEach rules others p w = some (q, v)) :
    ∃ fs, Runs others rules p w fs q v := by
  induction rules generalizing p w with
  | nil =>
      cases h
      exact ⟨[], .nil⟩
  | cons rule rules ih =>
      rw [applyEach_cons] at h
      obtain ⟨r, hr, h⟩ := Option.bind_eq_some_iff.mp h
      obtain ⟨fs, hfs⟩ := exists_applies_iff.mpr hr
      obtain ⟨gs, hgs⟩ := ih h
      exact ⟨fs ++ gs, .cons hfs hgs⟩

/-- What rules that stay within a class leave, and what all their firings find. -/
theorem Runs.sound (hD : Hereditary D) (hrules : ∀ rule ∈ rules, rule.Contracts D)
    (h : Runs others rules p w fs q v) (hp : D p) (hw : w.Tidy (others ++ p.cells)) :
    D q ∧ ∀ f ∈ fs, f.rule ∈ rules ∧ f.Sound D := by
  induction h with
  | nil => exact ⟨hp, List.forall_mem_nil _⟩
  | cons hrule _ ih =>
      obtain ⟨hfirst, hrules⟩ := List.forall_mem_cons.mp hrules
      obtain ⟨⟨hr, hu⟩, hfs⟩ := hfirst.sound hD hrule hp hw
      obtain ⟨hq, hgs⟩ := ih hrules hr hu
      refine ⟨hq, List.forall_mem_append.mpr ⟨fun f hf => ?_, fun f hf => ?_⟩⟩
      · exact ⟨(hfs f hf).1 ▸ List.mem_cons_self, (hfs f hf).2⟩
      · exact ⟨List.mem_cons_of_mem _ (hgs f hf).1, (hgs f hf).2⟩

theorem exists_runs_of_contracts (hD : Hereditary D) (hrules : ∀ rule ∈ rules, rule.Contracts D)
    (hp : D p) (hw : w.Tidy (others ++ p.cells)) : ∃ q v fs, Runs others rules p w fs q v := by
  induction rules generalizing p w with
  | nil => exact ⟨p, w, [], .nil⟩
  | cons rule rules ih =>
      obtain ⟨hfirst, hrules⟩ := List.forall_mem_cons.mp hrules
      obtain ⟨fs, r, u, hrule⟩ := exists_applies_of_contracts hD hfirst (sound_root hp hw)
      obtain ⟨⟨hr, hu⟩, -⟩ := hfirst.sound hD hrule hp hw
      obtain ⟨q, v, gs, hrest⟩ := ih hrules hr hu
      exact ⟨q, v, fs ++ gs, .cons hrule hrest⟩

theorem Runs.scheme (h : Runs others rules p w fs q v) (hfs : ∀ f ∈ fs, f.KeepsScheme ∧ f.Quiet) :
    q.scheme v.cells = p.scheme w.cells := by
  induction h with
  | nil => rfl
  | cons hrule _ ih =>
      obtain ⟨hfs, hgs⟩ := List.forall_mem_append.mp hfs
      exact (ih hgs).trans (scheme_of_applies hrule hfs).1

theorem Runs.nodes_eq (h : Runs others [rule] p w fs q v)
    (hrule : ∀ held p w, (rule.fire held p w).1 = p) : q = p ∧ fs.map Firing.node = p.preorder := by
  cases h with
  | cons h hnil =>
      cases hnil with
      | nil =>
          rw [List.append_nil]
          exact nodes_of_applies hrule h

/-! ### Rules with a log -/

theorem value_runLogged_false (rule : Rule σ) (others : List CellId) (p : Plan) (w : Workspace σ) :
    (rule.runLogged false others p w).value = rule.apply others [] p w := rfl

theorem value_runLogged_true (rule : Rule σ) (others : List CellId) (p : Plan) (w : Workspace σ) :
    (rule.runLogged true others p w).value =
      (rule.apply (others ++ p.cells) [] p w).map (fun r => (r.1, r.2.release (others ++ r.1.cells))) := by
  simp only [runLogged]
  cases rule.apply (others ++ p.cells) [] p w with
  | none => rfl
  | some r => cases hsame : !p.same r.1 <;> simp [hsame]

theorem value_runEach_cons (debugging : Bool) (rule : Rule σ) (rules : List (Rule σ))
    (others : List CellId) (p : Plan) (w : Workspace σ) :
    (runEach debugging (rule :: rules) others p w).value =
      (rule.runLogged debugging others p w).value.bind
        (fun r => (runEach debugging rules others r.1 r.2).value) := by
  rw [runEach, Logged.value_bind]
  cases (rule.runLogged debugging others p w).value <;> rfl

/-- Where nobody reads the log, it plays no part in what comes out. -/
theorem value_runEach_false (rules : List (Rule σ)) (others : List CellId) (p : Plan)
    (w : Workspace σ) : (runEach false rules others p w).value = applyEach rules others p w := by
  induction rules generalizing p w with
  | nil => rfl
  | cons rule rules ih =>
      rw [value_runEach_cons, value_runLogged_false, applyEach_cons]
      simp only [ih]

/-- What the log keeps plays no part in what comes out if no rule takes notice of it. -/
theorem Runs.value_runEach_true (h : Runs others rules p w fs q v) (hfs : ∀ f ∈ fs, f.Indifferent)
    (hu : w.Outlived u) :
    ∃ t, (runEach true rules others p u).value = some (q, t) ∧ v.Outlived t := by
  induction h generalizing u with
  | nil => exact ⟨u, rfl, hu⟩
  | cons hrule _ ih =>
      obtain ⟨hfs, hgs⟩ := List.forall_mem_append.mp hfs
      obtain ⟨_, s, hrule', hs⟩ := outlived_of_applies hrule hfs
        (fun k hk => List.mem_append_left _ hk) hu
      have htidy := tidy_of_applies hrule
      rw [List.flatMap_nil, List.append_nil] at htidy
      obtain ⟨t, ht, hout⟩ := ih hgs (hs.release_right htidy)
      refine ⟨t, ?_, hout⟩
      rw [value_runEach_cons, value_runLogged_true, apply_of_applies hrule']
      exact ht

/-- A rule that is done without a log is done with one.  With a log it is applied while the cells of the
plan are held, and they are let go of then. -/
theorem Contracts.exists_value_runLogged (hD : Hereditary D) (hrule : rule.Contracts D)
    (debugging : Bool) (hp : D p) (hw : w.Tidy (others ++ p.cells)) :
    ∃ held q u v fs, (rule.runLogged debugging others p w).value = some (q, v) ∧
      v.Tidy (others ++ q.cells) ∧ w.Tidy (held ++ p.cells) ∧ Applies rule held [] p w fs q u := by
  cases debugging with
  | false =>
      obtain ⟨fs, q, v, h⟩ := exists_applies_of_contracts hD hrule (sound_root hp hw)
      obtain ⟨⟨-, hv⟩, -⟩ := hrule.sound hD h hp hw
      exact ⟨others, q, v, v, fs, apply_of_applies h, hv, hw, h⟩
  | true =>
      have hheld : w.Tidy (others ++ p.cells ++ p.cells) :=
        hw.mono fun k hk => List.mem_append_left _ hk
      obtain ⟨fs, q, u, h⟩ := exists_applies_of_contracts hD hrule (sound_root hp hheld)
      refine ⟨others ++ p.cells, q, u, u.release (others ++ q.cells), fs, ?_,
        Workspace.tidy_release u _, hheld, h⟩
      rw [value_runLogged_true, apply_of_applies h]
      rfl

/-! ### Schemes -/

/-- On the plans of a class, the rule keeps the scheme, or its failure. -/
def KeepsSchemes (rule : Rule σ) (D : Plan → Prop) : Prop :=
  ∀ held p w, w.Tidy (held ++ p.cells) → D p →
    (rule.put held p w).1.scheme (rule.put held p w).2.cells = p.scheme w.cells

theorem KeepsSchemes.firing {f : Firing σ} (h : f.rule.KeepsSchemes D) (hf : f.Sound D) :
    f.KeepsScheme :=
  h _ _ _ hf.tidy hf.node

/-- Plans without states have the same scheme whatever the cells hold, so it does not matter what the
log keeps. -/
theorem exists_value_runEach (debugging : Bool) (hrules : ∀ rule ∈ rules, rule.Contracts StateFree)
    (hp : p.StateFree) (hw : w.Tidy (others ++ p.cells)) :
    ∃ q v, (runEach debugging rules others p w).value = some (q, v) ∧ q.StateFree ∧
      ((∀ rule ∈ rules, rule.KeepsSchemes StateFree) →
        ∀ before after, q.scheme after = p.scheme before) := by
  induction rules generalizing p w with
  | nil => exact ⟨p, w, rfl, hp, fun _ before after => scheme_of_detached hp.detached after before⟩
  | cons rule rules ih =>
      obtain ⟨hfirst, hrules⟩ := List.forall_mem_cons.mp hrules
      obtain ⟨held, r, u, v, fs, hrun, hv, hheld, h⟩ :=
        hfirst.exists_value_runLogged hereditary_stateFree debugging hp hw
      obtain ⟨⟨hr, -⟩, hfs⟩ := hfirst.sound hereditary_stateFree h hp hheld
      obtain ⟨q, t, hrest, hq, hscheme⟩ := ih hrules hr hv
      refine ⟨q, t, by rw [value_runEach_cons, hrun]; exact hrest, hq, fun hkeeps before after => ?_⟩
      obtain ⟨hkeep, hkeeps⟩ := List.forall_mem_cons.mp hkeeps
      have hfirings : ∀ f ∈ fs, f.KeepsScheme ∧ f.Quiet := by
        intro f hf
        obtain ⟨hf, hsound⟩ := hfs f hf
        rw [← hf] at hkeep
        exact ⟨hkeep.firing hsound, hsound.quiet⟩
      calc q.scheme after
          = r.scheme u.cells := hscheme hkeeps u.cells after
        _ = p.scheme w.cells := (scheme_of_applies h hfirings).1
        _ = p.scheme before := scheme_of_detached hp.detached w.cells before

theorem contracts_of_unchanged (h : ∀ held p w, (rule.fire held p w).1 = p) :
    rule.Contracts (fun _ => True) :=
  fun held p w _ _ => ⟨trivial, Nat.le_of_eq (congrArg size (h held p w))⟩

/-- **Rules that make no plan larger are done, and keep the schemes of plans if they keep those of nodes.**
Where there are states, they also have to be quiet.  With a log the same plan comes out: always if nobody
reads it, and else if what it keeps makes no difference to any firing.  Without states the scheme is kept
with a log, too.  The rule that gives back its argument is used once at each node, in preorder. -/
theorem applyEach_keeps_schemes (rules : List (Rule σ)) (others : List CellId) :
    ((∀ rule ∈ rules, rule.Contracts StateFree) →
        ∀ p w, p.StateFree → w.Tidy (others ++ p.cells) →
          ∃ q v, applyEach rules others p w = some (q, v) ∧ q.StateFree ∧
            ((∀ rule ∈ rules, rule.KeepsSchemes StateFree) →
              ∀ before after, q.scheme after = p.scheme before)) ∧
      ((∀ rule ∈ rules, rule.Contracts (fun _ => True)) →
        ∀ p w, w.Tidy (others ++ p.cells) →
          ∃ q v fs, applyEach rules others p w = some (q, v) ∧ Runs others rules p w fs q v ∧
            ((∀ rule ∈ rules, rule.KeepsSchemes (fun _ => True)) → (∀ f ∈ fs, f.Quiet) →
              q.scheme v.cells = p.scheme w.cells)) ∧
      (∀ p w, (runEach false rules others p w).value = applyEach rules others p w) ∧
      ((∀ rule ∈ rules, rule.Contracts StateFree) →
        ∀ p w, p.StateFree → w.Tidy (others ++ p.cells) →
          ∃ q v, (runEach true rules others p w).value = some (q, v) ∧ q.StateFree ∧
            ((∀ rule ∈ rules, rule.KeepsSchemes StateFree) →
              ∀ before after, q.scheme after = p.scheme before)) ∧
      (∀ p w q v, applyEach rules others p w = some (q, v) →
        ∃ fs, Runs others rules p w fs q v ∧ ((∀ f ∈ fs, f.Indifferent) →
          ∃ t, (runEach true rules others p w).value = some (q, t))) ∧
      ∀ rule : Rule σ, (∀ held p w, (rule.fire held p w).1 = p) →
        ∀ p w, w.Tidy (others ++ p.cells) →
          ∃ v fs, applyEach [rule] others p w = some (p, v) ∧ Runs others [rule] p w fs p v ∧
            fs.map Firing.node = p.preorder := by
  refine ⟨fun hrules p w hp hw => ?_, fun hrules p w hw => ?_, value_runEach_false rules others,
    fun hrules p w hp hw => exists_value_runEach true hrules hp hw, fun p w q v hrun => ?_,
    fun rule hrule p w hw => ?_⟩
  · rw [← value_runEach_false]
    exact exists_value_runEach false hrules hp hw
  · obtain ⟨q, v, fs, hruns⟩ := exists_runs_of_contracts hereditary_true hrules trivial hw
    obtain ⟨-, hfs⟩ := hruns.sound hereditary_true hrules trivial hw
    refine ⟨q, v, fs, hruns.applyEach_eq, hruns, fun hkeeps hquiet => ?_⟩
    exact hruns.scheme fun f hf => ⟨(hkeeps f.rule (hfs f hf).1).firing (hfs f hf).2, hquiet f hf⟩
  · obtain ⟨fs, hruns⟩ := exists_runs hrun
    refine ⟨fs, hruns, fun hfs => ?_⟩
    obtain ⟨t, ht, -⟩ := hruns.value_runEach_true hfs (.refl w)
    exact ⟨t, ht⟩
  · have hrules : ∀ r ∈ [rule], r.Contracts (fun _ => True) :=
      List.forall_mem_singleton.mpr (contracts_of_unchanged hrule)
    obtain ⟨q, v, fs, hruns⟩ := exists_runs_of_contracts hereditary_true hrules trivial hw
    obtain ⟨rfl, hnodes⟩ := hruns.nodes_eq hrule
    exact ⟨v, fs, hruns.applyEach_eq, hruns, hnodes⟩

/-- A rule that leaves the workspace and drops no fixpoint changes no cell. -/
theorem get_put_of_unchanged {held : List CellId} (hw : w.Tidy (held ++ p.cells))
    (hfire : (rule.fire held p w).2 = w) (hcells : ∀ k ∈ p.cells, k ∈ (rule.fire held p w).1.cells)
    (k : CellId) : (rule.put held p w).2.cells.get k = w.cells.get k := by
  have htidy : w.Tidy (held ++ (rule.fire held p w).1.cells) := by
    refine hw.mono fun k hk => ?_
    rw [List.mem_append] at hk ⊢
    exact hk.imp_right (hcells k)
  simp only [put, hfire]
  exact htidy.get_release k

theorem indifferent_of_node {f : Firing σ} {g : Plan → Plan}
    (h : ∀ held p w, f.rule.fire held p w = (g p, w)) : f.Indifferent := by
  intro held w _ hw
  rw [Firing.fired, h, h]
  exact ⟨rfl, hw⟩

/-- Makes one node of two that remove duplicates. -/
def collapsed : Plan → Plan
  | unary _ .distinct (unary notes .distinct input) => unary notes .distinct input
  | p => p

theorem collapsed_cases (p : Plan) : collapsed p = p ∨ collapsed p ∈ p.inputs ∧
    (∀ k ∈ p.cells, k ∈ (collapsed p).cells) ∧
      ∀ table, (collapsed p).scheme table = p.scheme table := by
  unfold collapsed
  split
  · refine Or.inr ⟨List.mem_singleton_self _, fun k hk => ?_, fun _ => rfl⟩
    rw [mem_cells] at hk
    simpa [cell?, inputs] using hk
  · exact Or.inl rfl

/-- The rule that makes one node of two that remove duplicates. -/
def collapseDistinct : Rule Unit := ⟨"CollapseDistinct", fun _ p w => (collapsed p, w)⟩

theorem get_put_collapseDistinct {held : List CellId} {w : Workspace Unit}
    (hw : w.Tidy (held ++ p.cells)) (k : CellId) :
    (collapseDistinct.put held p w).2.cells.get k = w.cells.get k := by
  refine get_put_of_unchanged hw rfl (fun k hk => ?_) k
  rcases collapsed_cases p with h | ⟨-, h, -⟩
  · rwa [← h] at hk
  · exact h k hk

theorem contracts_collapseDistinct (hD : Hereditary D) : collapseDistinct.Contracts D := by
  intro held p w _ hp
  rcases collapsed_cases p with h | ⟨h, -⟩
  · exact ⟨by rwa [← h] at hp, Nat.le_of_eq (congrArg size h)⟩
  · exact ⟨hD.input hp h, Nat.le_of_lt (size_lt_of_mem_inputs h)⟩

theorem keepsSchemes_collapseDistinct : collapseDistinct.KeepsSchemes D := by
  intro held p w hw _
  rw [scheme_congr fun k _ => get_put_collapseDistinct hw k]
  rcases collapsed_cases p with h | ⟨-, -, h⟩
  · exact congrArg (scheme w.cells) h
  · exact h w.cells

theorem quiet_collapseDistinct {f : Firing Unit} (hrule : f.rule = collapseDistinct)
    (hf : f.Sound D) : f.Quiet := by
  intro p _ k _
  rw [Firing.after, hrule]
  exact get_put_collapseDistinct hf.tidy k

theorem indifferent_collapseDistinct {f : Firing Unit} (hrule : f.rule = collapseDistinct) :
    f.Indifferent :=
  indifferent_of_node (g := collapsed) (by rw [hrule]; exact fun _ _ _ => rfl)

/-- Duplicates are removed three times. -/
def thrice (p : Plan) : Plan := unary {} .distinct (unary {} .distinct (unary {} .distinct p))

/-- A fixpoint with one column. -/
def oneFixpoint : Plan := unary {} (.fixpoint 0) oneColumn

/-- A state that reads the fixpoint. -/
def reader : Plan := leaf {} (.state "s" (some 0))

/-- The fixpoint holds the only cell. -/
def oneCell : Workspace Unit := ⟨⟨[.bound ⟨[.named "a" .int]⟩]⟩, [], ()⟩

theorem stateFree_thrice : (thrice oneColumn).StateFree := by
  simp only [StateFree, preorder, preorderFrom, thrice, oneColumn, inputs, List.cons_append,
    List.nil_append]
  decide

theorem tidy_oneCell (hp : 0 ∈ p.cells) : oneCell.Tidy ([] ++ p.cells) := by
  intro k hk
  cases k with
  | zero => exact absurd (List.mem_append_left _ hp) hk
  | succ k => rfl

/-- Duplicates are removed three times from a fixpoint, beside a state that reads the fixpoint. -/
def thriceRead : Plan := binary {} .crossProduct (thrice oneFixpoint) reader

theorem zero_mem_cells_oneFixpoint : 0 ∈ oneFixpoint.cells := mem_cells.mpr (Or.inl rfl)

theorem zero_mem_cells_thriceRead : 0 ∈ thriceRead.cells :=
  mem_cells_of_at? (show thriceRead.at? [0, 0, 0, 0] = some oneFixpoint from rfl)
    zero_mem_cells_oneFixpoint

theorem apply_eq (rule : Rule σ) (others : List CellId) (around : List Plan) (p : Plan)
    (w : Workspace σ) : rule.apply others around p w =
      rule.applyInputs others around (rule.put (others ++ around.flatMap cells) p w).1 []
        (rule.put (others ++ around.flatMap cells) p w).1.inputs
        (rule.put (others ++ around.flatMap cells) p w).2 := by
  rw [apply]

theorem applyInputs_nil (rule : Rule σ) (others : List CellId) (around done : List Plan) (q : Plan)
    (w : Workspace σ) :
    rule.applyInputs others around q done [] w = some (q.withInputs done, w) := by
  rw [applyInputs]

theorem applyInputs_cons (rule : Rule σ) (others : List CellId) (around done rest : List Plan)
    (p q : Plan) (w : Workspace σ) : rule.applyInputs others around q done (p :: rest) w =
      (rule.apply others (q.gap done rest :: around) p w).bind
        (fun r => rule.applyInputs others around q (done ++ [r.1]) rest r.2) := by
  rw [applyInputs]
  rfl

/-- The node that was put in is not looked at again, so two of the three nodes remain.  The rule drops
no fixpoint, so the state keeps its scheme, and the log changes nothing. -/
theorem applyEach_keeps_schemes_thrice :
    (applyEach [collapseDistinct] [] (thrice oneColumn) ⟨.empty, [], ()⟩).map Prod.fst =
        some (unary {} .distinct (unary {} .distinct oneColumn)) ∧
      (∃ q v, applyEach [collapseDistinct] [] (thrice oneColumn) ⟨.empty, [], ()⟩ = some (q, v) ∧
        ∀ before after, q.scheme after = (thrice oneColumn).scheme before) ∧
      (∃ q v, (runEach true [collapseDistinct] [] (thrice oneColumn) ⟨.empty, [], ()⟩).value =
          some (q, v) ∧ ∀ before after, q.scheme after = (thrice oneColumn).scheme before) ∧
      (∃ q v t, applyEach [collapseDistinct] [] thriceRead oneCell = some (q, v) ∧
        q.scheme v.cells = thriceRead.scheme oneCell.cells ∧
        (runEach true [collapseDistinct] [] thriceRead oneCell).value = some (q, t)) ∧
      ∃ v fs, applyEach [⟨"Unchanged", fun _ p w => (p, w)⟩] [] thriceRead oneCell =
          some (thriceRead, v) ∧
        Runs [] [⟨"Unchanged", fun _ p w => (p, w)⟩] thriceRead oneCell fs thriceRead v ∧
        fs.map Firing.node = thriceRead.preorder := by
  have hcontracts {D : Plan → Prop} (hD : Hereditary D) :
      ∀ rule ∈ [collapseDistinct], rule.Contracts D :=
    List.forall_mem_singleton.mpr (contracts_collapseDistinct hD)
  have hkeeps {D : Plan → Prop} : ∀ rule ∈ [collapseDistinct], rule.KeepsSchemes D :=
    List.forall_mem_singleton.mpr keepsSchemes_collapseDistinct
  have htidy := tidy_oneCell zero_mem_cells_thriceRead
  obtain ⟨hstateFree, hplans, -, hlogged, hlog, hunchanged⟩ :=
    applyEach_keeps_schemes [collapseDistinct] []
  refine ⟨?_, ?_, ?_, ?_, ?_⟩
  · simp [applyEach, apply_eq, applyInputs_nil, applyInputs_cons, put, collapseDistinct, collapsed,
      thrice, oneColumn, gap, inputs, withInputs]
  · obtain ⟨q, v, hrun, -, hscheme⟩ := hstateFree (hcontracts hereditary_stateFree)
      (thrice oneColumn) ⟨.empty, [], ()⟩ stateFree_thrice (fun _ _ => rfl)
    exact ⟨q, v, hrun, hscheme hkeeps⟩
  · obtain ⟨q, v, hrun, -, hscheme⟩ := hlogged (hcontracts hereditary_stateFree)
      (thrice oneColumn) ⟨.empty, [], ()⟩ stateFree_thrice (fun _ _ => rfl)
    exact ⟨q, v, hrun, hscheme hkeeps⟩
  · obtain ⟨q, v, fs, hrun, hruns, hscheme⟩ :=
      hplans (hcontracts hereditary_true) thriceRead oneCell htidy
    obtain ⟨-, hfs⟩ := hruns.sound hereditary_true (hcontracts hereditary_true) trivial htidy
    obtain ⟨gs, hruns', hvalue⟩ := hlog thriceRead oneCell q v hrun
    obtain ⟨-, hgs⟩ := hruns'.sound hereditary_true (hcontracts hereditary_true) trivial htidy
    obtain ⟨t, ht⟩ := hvalue fun f hf => indifferent_collapseDistinct (List.mem_singleton.mp (hgs f hf).1)
    exact ⟨q, v, t, hrun, hscheme hkeeps fun f hf =>
      quiet_collapseDistinct (List.mem_singleton.mp (hfs f hf).1) (hfs f hf).2, ht⟩
  · exact hunchanged ⟨"Unchanged", fun _ p w => (p, w)⟩ (fun _ _ _ => rfl) thriceRead oneCell htidy

/-- Puts a relation without rows in place of a limit of none. -/
def emptyLimit : Rule Unit where
  name := "EmptyLimit"
  fire _ p w := match p with
    | unary _ (.limit 0) input => match input.scheme w.cells with
      | .ok s => (leaf {} (.emptyRelation s), w)
      | .error _ => (p, w)
    | p => (p, w)

theorem emptyLimit_cases (held : List CellId) (p : Plan) (w : Workspace Unit) :
    (emptyLimit.fire held p w).2 = w ∧ ((emptyLimit.fire held p w).1 = p ∨
      ∃ s, p.scheme w.cells = .ok s ∧
        (emptyLimit.fire held p w).1 = leaf {} (.emptyRelation s)) := by
  unfold emptyLimit
  dsimp only
  split
  · split
    · rename_i s hs
      exact ⟨rfl, Or.inr ⟨s, hs, rfl⟩⟩
    · exact ⟨rfl, Or.inl rfl⟩
  · exact ⟨rfl, Or.inl rfl⟩

theorem contracts_emptyLimit (hD : ∀ s, D (leaf {} (.emptyRelation s))) : emptyLimit.Contracts D := by
  intro held p w _ hp
  simp only [put]
  rcases (emptyLimit_cases held p w).2 with h | ⟨s, -, h⟩
  · rw [h]
    exact ⟨hp, Nat.le_refl _⟩
  · rw [h]
    exact ⟨hD s, size_pos p⟩

theorem keepsSchemes_emptyLimit : emptyLimit.KeepsSchemes D := by
  intro held p w hw _
  obtain ⟨hfire, h | ⟨s, hs, h⟩⟩ := emptyLimit_cases held p w
  · rw [scheme_congr fun k _ => get_put_of_unchanged hw hfire (fun k hk => by rwa [h]) k]
    exact congrArg (scheme w.cells) h
  · rw [hs]
    exact congrArg _ h

/-- A fixpoint under a limit of none, beside another plan. -/
def limited (q : Plan) : Plan := binary {} .crossProduct (unary {} (.limit 0) oneFixpoint) q

theorem applyEach_limited : applyEach [emptyLimit] [] (limited reader) oneCell =
    some (binary {} .crossProduct (leaf {} (.emptyRelation ⟨[.named "a" .int]⟩)) reader,
      ⟨⟨[.gone]⟩, [], ()⟩) := by
  simp [applyEach, apply_eq, applyInputs_nil, applyInputs_cons, put, emptyLimit, limited, reader,
    oneFixpoint, oneCell, oneColumn, gap, Workspace.release, Cells.retain, inputs, withInputs, cells,
    preorder, preorderFrom, cell?, scheme, Unary.scheme, Leaf.scheme]

/-- The state is detached once the rule gets to the limit around it. -/
theorem applyEach_limited_twice :
    applyEach [emptyLimit] [] (limited (unary {} (.limit 0) reader)) oneCell =
      some (binary {} .crossProduct (leaf {} (.emptyRelation ⟨[.named "a" .int]⟩))
        (unary {} (.limit 0) reader), ⟨⟨[.gone]⟩, [], ()⟩) := by
  simp [applyEach, apply_eq, applyInputs_nil, applyInputs_cons, put, emptyLimit, limited, reader,
    oneFixpoint, oneCell, oneColumn, gap, Workspace.release, Cells.retain, inputs, withInputs, cells,
    preorder, preorderFrom, cell?, scheme, Unary.scheme, Leaf.scheme, Cells.stateScheme, Cells.get]

/-- What the log keeps holds the fixpoint so long. -/
theorem value_runEach_limited_twice :
    (runEach true [emptyLimit] [] (limited (unary {} (.limit 0) reader)) oneCell).value =
      some (binary {} .crossProduct (leaf {} (.emptyRelation ⟨[.named "a" .int]⟩))
        (leaf {} (.emptyRelation ⟨[.named "a" .int]⟩)), ⟨⟨[.gone]⟩, [], ()⟩) := by
  simp [runEach, value_runLogged_true, apply_eq, applyInputs_nil, applyInputs_cons, put, emptyLimit,
    limited, reader, oneFixpoint, oneCell, oneColumn, gap, Workspace.release, Cells.retain, inputs,
    withInputs, cells, preorder, preorderFrom, cell?, scheme, Unary.scheme, Leaf.scheme,
    Cells.stateScheme, Cells.get]

/-- **A state loses the fixpoint that a rule drops.**  The rule keeps plans without states free of them,
makes no plan larger and keeps the scheme of every node, but not the scheme of the plan, where nothing
else holds the fixpoint.  With a log the fixpoint is held as long as the rule is applied, and the
rule may come to another plan. -/
theorem applyEach_detaches_state :
    emptyLimit.Contracts StateFree ∧ emptyLimit.Contracts (fun _ => True) ∧
      emptyLimit.KeepsSchemes (fun _ => True) ∧
      (∃ q v, applyEach [emptyLimit] [] (limited reader) oneCell = some (q, v) ∧
        (limited reader).scheme oneCell.cells = .ok ⟨[.named "a" .int, .named "a" .int]⟩ ∧
        q.scheme v.cells = .error (.recursion (.detachedState "s"))) ∧
      (applyEach [emptyLimit] [] (limited (unary {} (.limit 0) reader)) oneCell).map Prod.fst ≠
        (runEach true [emptyLimit] [] (limited (unary {} (.limit 0) reader)) oneCell).value.map
          Prod.fst := by
  refine ⟨contracts_emptyLimit fun s => stateFree_leaf {} rfl, contracts_emptyLimit fun s => trivial,
    keepsSchemes_emptyLimit, ⟨_, _, applyEach_limited, rfl, rfl⟩, ?_⟩
  rw [applyEach_limited_twice, value_runEach_limited_twice]
  intro h
  cases h

end Rule

end Planner
