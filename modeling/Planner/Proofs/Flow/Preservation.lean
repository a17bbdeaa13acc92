import Planner.Proofs.Flow.Simulation

/-! # The passes keep what a program does

Both passes take a node out that assigns a temporary relation.  `Carried` lists what a relation
between the environments of the two runs has to satisfy for this to go unnoticed, in terms of what is
live in the graph; `Carried.emitsAs` derives that both runs emit the same.

Without a dead node the environments agree on what is live (`carried_dead`).  If a node is moved into the
next one, they agree up to the assignment that is still to be made up for before the reader
(`carried_fused`).  Main statements: `DeadStep.emitsAs` and `FuseStep.emitsAs`. -/

namespace Planner.Flow

open Interpretation

universe u

variable {V : Type u}

/-- The environments agree on a set of names. -/
def AgreeOn (names : NameSet) (e e' : Env V) : Prop := ∀ x ∈ names, e x = e' x

theorem Node.IsStatement.endLinked {n : Node} (hn : n.IsStatement) (I : Interpretation V)
    (rounds : ℕ) {notes : Notes} {op : Unary} {p q : Plan} (hop : n.op = .unary notes op p)
    {names : NameSet} {s t : Running V} (hemitted : s.emitted = t.emitted)
    (hvalue : I.eval s.env p = I.eval t.env q)
    (henv : ∀ x ∈ names, n.target ≠ some x → s.env x = t.env x) :
    EndLinked (AgreeOn names) (I.run rounds n.op s) (I.run rounds (.unary notes op q) t) := by
  rcases hn with ⟨name, p', htarget, hop'⟩ | ⟨key, p', htarget, hop'⟩
  · rw [hop'] at hop
    obtain ⟨rfl, rfl, rfl⟩ := Plan.unary.inj hop
    rw [hop', run, run, hvalue]
    refine .some ⟨hemitted, fun x hx => ?_⟩
    by_cases hne : x = name
    · subst hne
      rw [Running.env_assign_self, Running.env_assign_self]
    · rw [Running.env_assign_of_ne s hne, Running.env_assign_of_ne t hne]
      refine henv x hx (fun e => hne ?_)
      exact (Option.some.inj (htarget.symm.trans e)).symm
  · rw [hop'] at hop
    obtain ⟨rfl, rfl, rfl⟩ := Plan.unary.inj hop
    rw [hop', run, run, hvalue]
    refine .some ⟨?_, fun x hx => henv x hx ?_⟩
    · show s.emitted ++ _ = t.emitted ++ _
      rw [hemitted]
    · rw [htarget]
      exact (Option.some_ne_none x).symm

/-! ### Taking a node out -/

/-- A relation between environments at each node that is kept if the node `a`, which assigns the
value of a plan to a name, is taken out and the plans of the other nodes are changed. -/
structure Carried (I : Interpretation V) (g : Graph) (a : Node) (name : String) (p : Plan)
    (change : Node → Plan → Plan) (R : ℕ → Env V → Env V → Prop) : Prop where
  start : ∀ i, g.ids.head? = some i → ∀ e, R i e e
  removed : ∀ i, ⟨a.id, i⟩ ∈ spine g.ids → ∀ e e', R a.id e e' →
    R i (Function.update e name (I.eval e p)) e'
  value : ∀ n ∈ g.nodes, n.id ≠ a.id → ∀ e e', R n.id e e' →
    ∀ q, (∀ x ∈ q.temps, x ∈ n.uses) → I.eval e q = I.eval e' (change n q)
  agree : ∀ n ∈ g.nodes, n.id ≠ a.id → ∀ e e', R n.id e e' →
    ∀ x ∈ g.liveness.value.behind n.id, n.target ≠ some x → e x = e' x
  next : ∀ n ∈ g.nodes, n.id ≠ a.id → ∀ i, ⟨n.id, i⟩ ∈ g.edges →
    ∀ e e', AgreeOn (g.liveness.value.behind n.id) e e' → R i e e'

/-- The relation before a node, or none at the end. -/
def AtPoint (R : ℕ → Env V → Env V → Prop) (i : Option ℕ) (e e' : Env V) : Prop :=
  ∀ j, i = some j → R j e e'

namespace Carried

variable {I : Interpretation V} {g : Graph} {a : Node} {name : String} {p : Plan}
variable {change : Node → Plan → Plan} {R : ℕ → Env V → Env V → Prop} {d : Code}
variable {f : Node → Option Node}

/-- What a rewriting has to do to take the node out. -/
structure TakesOut (f : Node → Option Node) (a : Node) (change : Node → Plan → Plan) (d : Code) :
    Prop where
  drops : ∀ n ∈ d.nodes, n.id = a.id → f n = none
  keeps : ∀ n ∈ d.nodes, n.id ≠ a.id → ∃ m, f n = some m ∧ m.op = change n n.op
  unary : ∀ n notes op q, change n (.unary notes op q) = .unary notes op (change n q)

theorem atPoint_next (h : Carried I g a name p change R) (hg : g.Shows d) {n : Node} (hn : n ∈ d.nodes)
    (hne : n.id ≠ a.id) {before behind : List ℕ} (hids : d.ids = before ++ n.id :: behind)
    {e e' : Env V} (hagree : AgreeOn (g.liveness.value.behind n.id) e e') :
    AtPoint R behind.head? e e' := by
  intro i hi
  have hspine := (mem_spine_iff_head? hg.nodup hids).mpr hi
  exact h.next n (hg.nodes_eq ▸ hn) hne i ((hg.mem_edges _).mpr (Or.inl hspine)) e e' hagree

theorem run_removed (h : Carried I g a name p change R) (hg : g.Shows d)
    (hop : a.op = .unary {} (.storeTemp name) p) (rounds : ℕ) {before behind : List ℕ}
    (hids : d.ids = before ++ a.id :: behind) {s t : Running V}
    (hst : Linked (AtPoint R (some a.id)) s t) :
    EndLinked (AtPoint R behind.head?) (I.run rounds a.op s) (some t) := by
  rw [hop, run]
  refine .some ⟨hst.emitted_eq, fun i hi => ?_⟩
  have hspine := (mem_spine_iff_head? hg.nodup hids).mpr hi
  exact h.removed i (hg.ids_eq ▸ hspine) _ _ (hst.env a.id rfl)

theorem run_kept (h : Carried I g a name p change R) (hg : g.Shows d) (hd : d.Proper)
    (hf : TakesOut f a change d) (rounds : ℕ) {n : Node} (hn : n ∈ d.steps) (hne : n.id ≠ a.id)
    {before behind : List ℕ} (hids : d.ids = before ++ n.id :: behind) {s t : Running V}
    (hst : Linked (AtPoint R (some n.id)) s t) :
    EndLinked (AtPoint R behind.head?) (I.run rounds n.op s)
      (I.runAll rounds (Code.rewrittenPlans f n) t) := by
  have hmem : n ∈ d.nodes := Code.mem_nodes_iff.mpr (Or.inl hn)
  have hnode : n ∈ g.nodes := hg.nodes_eq ▸ hmem
  have hR := hst.env n.id rfl
  obtain ⟨m, hm, hmop⟩ := hf.keeps n hmem hne
  obtain ⟨op, q, hop⟩ := (hd.statements n hn).exists_unary
  have hplans : Code.rewrittenPlans f n = [.unary {} op (change n q)] := by
    rw [Code.rewrittenPlans, hm, Option.map_some, hmop, hop, hf.unary]
    rfl
  have hvalue := h.value n hnode hne _ _ hR q (hd.uses_of_unary hmem hop)
  have hrun := (hd.statements n hn).endLinked I rounds hop hst.emitted_eq hvalue
    (h.agree n hnode hne _ _ hR)
  rw [hplans, runAll_singleton]
  exact hrun.mono (fun e e' => h.atPoint_next hg hmem hne hids)

theorem agree_of_test (h : Carried I g a name p change R) (hg : g.Shows d) (hd : d.Proper) {n : Node}
    (hn : n ∈ d.tests) (hne : n.id ≠ a.id) {e e' : Env V} (hR : R n.id e e') :
    AgreeOn (g.liveness.value.behind n.id) e e' := by
  have hmem : n ∈ g.nodes := hg.nodes_eq ▸ Code.mem_nodes_of_mem_tests hn
  refine fun x hx => h.agree n hmem hne e e' hR x hx ?_
  rw [hd.conditions n hn]
  exact (Option.some_ne_none x).symm

theorem steps (h : Carried I g a name p change R) (hg : g.Shows d) (hd : d.Proper) (ha : a ∈ d.nodes)
    (htarget : a.target = some name) (hop : a.op = .unary {} (.storeTemp name) p)
    (hf : TakesOut f a change d) (rounds : ℕ) : Code.Steps I rounds (AtPoint R) f d.ids d := by
  have htests : ∀ n ∈ d.tests, n.id ≠ a.id := fun n hn e =>
    hd.not_mem_tests hg.nodup ha htarget (e ▸ List.mem_map_of_mem hn)
  refine ⟨?_, ?_, ?_, ?_⟩
  · intro n hn before behind hids s t hst
    by_cases hna : n.id = a.id
    · have hmem : n ∈ d.nodes := Code.mem_nodes_iff.mpr (Or.inl hn)
      obtain rfl : n = a := hg.numbered.eq_of_id (hg.nodes_eq ▸ hmem) (hg.nodes_eq ▸ ha) hna
      rw [Code.rewrittenPlans, hf.drops n hmem rfl]
      exact h.run_removed hg hop rounds hids hst
    · exact h.run_kept hg hd hf rounds hn hna hids hst
  · intro n hn e e' hR
    have hmem := Code.mem_nodes_of_mem_tests hn
    obtain ⟨m, hm, hmop⟩ := hf.keeps n hmem (htests n hn)
    rw [hm, Option.getD_some, hmop]
    refine h.value n (hg.nodes_eq ▸ hmem) (htests n hn) e e' (hR n.id rfl) n.op (fun x hx => ?_)
    rw [hd.uses_eq n hmem]
    exact hx
  · intro n hn before behind hids e e' hR
    have hagree := h.agree_of_test hg hd hn (htests n hn) (hR n.id rfl)
    exact h.atPoint_next hg (Code.mem_nodes_of_mem_tests hn) (htests n hn) hids hagree
  · intro i j hij e e' hR k hk
    obtain rfl := Option.some.inj hk
    have hi : i ∈ d.tests.map Node.id := by
      rw [← Code.map_source_backs]
      exact List.mem_map_of_mem (f := Edge.source) hij
    obtain ⟨n, hn, rfl⟩ := List.mem_map.mp hi
    have hmem : n ∈ g.nodes := hg.nodes_eq ▸ Code.mem_nodes_of_mem_tests hn
    have hagree := h.agree_of_test hg hd hn (htests n hn) (hR n.id rfl)
    exact h.next n hmem (htests n hn) j ((hg.mem_edges _).mpr (Or.inr hij)) e e' hagree

/-- **Taking the node out goes unnoticed.** -/
theorem emitsAs (h : Carried I g a name p change R) (hg : g.Shows d) (hd : d.Proper)
    (ha : a ∈ d.nodes) (htarget : a.target = some name)
    (hop : a.op = .unary {} (.storeTemp name) p) (hf : TakesOut f a change d) :
    d.EmitsAs I (d.rewrite f) := by
  intro rounds env
  have hsteps := h.steps hg hd ha htarget hop hf rounds
  have hids : d.ids = [] ++ (d.ids ++ []) := by rw [List.append_nil, List.nil_append]
  refine (Code.runAll_rewrite hsteps hids ⟨rfl, fun i hi => ?_⟩).emitted_eq
  rw [List.append_nil, ← hg.ids_eq] at hi
  exact h.start i hi env

end Carried

namespace Graph

open Carried

variable {g h : Graph} {c d : Code} {a b n : Node} {name : String} {p : Plan}

/-! ### Dead nodes -/

theorem carried_dead (I : Interpretation V) (hg : g.Shows d) (ha : a ∈ g.nodes)
    (htarget : a.target = some name) (hdead : name ∉ g.liveness.value.behind a.id) (p : Plan) :
    Carried I g a name p (fun _ q => q) (fun i => AgreeOn (g.liveness.value.before i)) := by
  have hnum := hg.numbered
  refine ⟨fun _ _ _ _ _ => rfl, ?_, ?_, ?_, ?_⟩
  · intro i hi e e' hR x hx
    have hedge := (hg.mem_edges _).mpr (Or.inl (hg.ids_eq ▸ hi))
    have hbehind := mem_behind_of_edge hnum ha hedge hx
    have hne : x ≠ name := fun e => hdead (e ▸ hbehind)
    rw [Function.update_of_ne hne]
    exact hR x (mem_before_of_behind hnum ha hbehind (target_ne htarget hne))
  · intro n hn _ e e' hR q hq
    exact I.eval_congr (fun x hx => hR x (mem_before_of_uses hnum hn (hq x hx)))
  · intro n hn _ e e' hR x hx hne
    exact hR x (mem_before_of_behind hnum hn hx hne)
  · intro n hn _ i hedge e e' hagree x hx
    exact hagree x (mem_behind_of_edge hnum hn hedge hx)

/-- **Deleting a dead node goes unnoticed.** -/
theorem DeadStep.emitsAs (I : Interpretation V) (hg : g.Follows c) (hstep : g.DeadStep h) :
    (c.view g).EmitsAs I (c.view h) := by
  obtain ⟨a, ha, hdead, rfl⟩ := hstep
  obtain ⟨name, htarget, hbehind⟩ := isDead_iff.mp hdead
  have hmem : a ∈ (c.view g).nodes := hg.shows.nodes_eq ▸ ha
  obtain ⟨p, hop⟩ := hg.proper.op_eq hmem htarget
  have hout : TakesOut (Code.drop a.id) a (fun _ q => q) (c.view g) :=
    ⟨fun _ _ hid => if_pos hid, fun n _ hne => ⟨n, Code.drop_of_ne hne, rfl⟩, fun _ _ _ _ => rfl⟩
  rw [(hg.deadStep ha hdead).2]
  exact (carried_dead I hg.shows ha htarget hbehind p).emitsAs hg.shows hg.proper hmem htarget hop hout

/-! ### Nodes moved into the next one -/

/-- The environment before a node, with the assignment made up for if the node is the reader. -/
def settled (I : Interpretation V) (reader : ℕ) (name : String) (p : Plan) (i : ℕ) (e : Env V) :
    Env V :=
  if i = reader then Function.update e name (I.eval e p) else e

/-- The plan of a node, with the moved plan in it if the node is the reader. -/
def moved (g : Graph) (reader : Node) (name : String) (p : Plan) (n : Node) (q : Plan) : Plan :=
  if n.id = reader.id then (q.substitute name p g.cells).1 else q

theorem eval_moved (I : Interpretation V) (g : Graph) (reader : Node) (name : String) (p : Plan)
    (n : Node) (q : Plan) (e : Env V) :
    I.eval e (g.moved reader name p n q) = I.eval (settled I reader.id name p n.id e) q := by
  unfold moved settled
  split_ifs
  · exact I.eval_substitute e q name p g.cells
  · rfl

theorem takesOut_fuseNode (hg : g.Numbered) (hb : b ∈ g.nodes) (hd : d.nodes = g.nodes)
    (hop : a.op = .unary {} (.storeTemp name) p) :
    TakesOut (g.fuseNode a b name) a (g.moved b name p) d := by
  refine ⟨fun n _ hid => ?_, fun n hn hne => ?_, fun n notes op q => ?_⟩
  · rw [fuseNode, Code.drop, Code.id_swap, if_pos hid]
  · refine ⟨_, Code.drop_of_ne (by rw [Code.id_swap]; exact hne), ?_⟩
    unfold Code.swap moved
    by_cases hid : n.id = b.id
    · obtain rfl := hg.eq_of_id (hd ▸ hn) hb hid
      have hself : n.id = (g.absorbed a n name).id := rfl
      rw [if_pos hself, if_pos rfl, absorbed, stored_eq hop]
    · have hother : n.id ≠ (g.absorbed a b name).id := hid
      rw [if_neg hother, if_neg hid]
  · unfold moved
    split_ifs
    · exact substitute_unary notes op q name p g.cells
    · rfl

theorem Joinable.ne_of_edge (hj : g.Joinable a b name) (hg : g.Shows d) (hne : n.id ≠ a.id) {i : ℕ}
    (hedge : ⟨n.id, i⟩ ∈ g.edges) : i ≠ b.id := by
  rintro rfl
  rcases (hg.mem_edges _).mp hedge with hspine | hback
  · rw [← hg.ids_eq] at hspine
    exact hne (source_eq_of_mem_spine hg.numbered.nodup hspine hj.adjacent)
  · have hids : b.id ∈ d.ids := hg.ids_eq ▸ List.mem_map_of_mem hj.reader_mem
    have hheader := hj.header
    rw [isHeader, decide_eq_false_iff_not, hg.loopsOpened hids, Nat.not_lt, Nat.le_zero,
      Code.opens, List.countP_eq_zero] at hheader
    exact hheader _ hback (beq_self_eq_true b.id)

/-- While the assignment is not made up for, the environments agree on what is live up to it. -/
theorem carried_fused (I : Interpretation V) (hg : g.Shows d) (hj : g.Joinable a b name)
    (huses : ∀ x ∈ p.temps, x ∈ a.uses) :
    Carried I g a name p (g.moved b name p) (fun i e e' =>
      AgreeOn (g.liveness.value.before i) e (settled I b.id name p i e')) := by
  have hnum := hg.numbered
  have ha := hj.writer_mem
  have hab := hj.adjacent
  refine ⟨?_, ?_, ?_, ?_, ?_⟩
  · intro i hi e x hx
    have hib : i ≠ b.id := fun e => head?_ne_of_mem_spine hnum.nodup hab (e ▸ hi)
    rw [settled, if_neg hib]
  · intro i hi e e' hR x hx
    obtain rfl := target_eq_of_mem_spine hnum.nodup hab hi
    rw [settled, if_neg (hj.id_ne hnum)] at hR
    have hvalue : I.eval e p = I.eval e' p :=
      I.eval_congr (fun y hy => hR y (mem_before_of_uses hnum ha (huses y hy)))
    -- Before the reader the first run has made the assignment that the second one still owes.
    rw [settled, if_pos rfl, hvalue]
    by_cases hxn : x = name
    · rw [hxn, Function.update_self, Function.update_self]
    · rw [Function.update_of_ne hxn, Function.update_of_ne hxn]
      have hedge := (hg.mem_edges _).mpr (Or.inl (hg.ids_eq ▸ hab))
      have hbehind := mem_behind_of_edge hnum ha hedge hx
      exact hR x (mem_before_of_behind hnum ha hbehind (target_ne hj.target hxn))
  · intro n hn _ e e' hR q hq
    rw [eval_moved]
    exact I.eval_congr (fun x hx => hR x (mem_before_of_uses hnum hn (hq x hx)))
  · intro n hn _ e e' hR x hx hxt
    rw [hR x (mem_before_of_behind hnum hn hx hxt), settled]
    split_ifs with hid
    · have hxn : x ≠ name := fun e => hj.dead (e ▸ hid ▸ hx)
      exact Function.update_of_ne hxn _ _
    · rfl
  · intro n hn hna i hedge e e' hagree x hx
    rw [settled, if_neg (hj.ne_of_edge hg hna hedge)]
    exact hagree x (mem_behind_of_edge hnum hn hedge hx)

/-- **Moving a node into the next one goes unnoticed.** -/
theorem FuseStep.emitsAs (I : Interpretation V) (hg : g.Follows c) (hstep : g.FuseStep h) :
    (c.view g).EmitsAs I (c.view h) := by
  obtain ⟨a, b, name, hj, rfl⟩ := hstep
  have hmem : a ∈ (c.view g).nodes := hg.shows.nodes_eq ▸ hj.writer_mem
  obtain ⟨p, hop⟩ := hg.proper.op_eq hmem hj.target
  have hout := takesOut_fuseNode hg.shows.numbered hj.reader_mem hg.shows.nodes_eq.symm hop
  have hcarried := carried_fused I hg.shows hj (hg.proper.uses_of_unary hmem hop)
  rw [(hg.fuseStep hj).2]
  exact hcarried.emitsAs hg.shows hg.proper hmem hj.target hop hout

/-! ### The passes -/

theorem Follows.emitsAs_run (I : Interpretation V) {S : Graph → Graph → Prop}
    (hS : ∀ g h, g.Follows c → S g h → h.Follows c)
    (hE : ∀ g h, g.Follows c → S g h → (c.view g).EmitsAs I (c.view h)) (hg : g.Follows c)
    (hrun : Relation.ReflTransGen S g h) : h.Follows c ∧ (c.view g).EmitsAs I (c.view h) := by
  induction hrun with
  | refl => exact ⟨hg, fun _ _ => rfl⟩
  | tail _ hstep ih => exact ⟨hS _ _ ih.1 hstep, ih.2.trans (hE _ _ ih.1 hstep)⟩

theorem Follows.emitsAs_pruned (I : Interpretation V) (config : Config) (hg : g.Follows c) :
    (c.view g).EmitsAs I (c.view (g.pruned config)) :=
  (hg.emitsAs_run I (fun _ _ => Follows.of_deadStep) (fun _ _ => DeadStep.emitsAs I)
    (pruned_steps config g).1).2

theorem Follows.emitsAs_optimized (I : Interpretation V) (config : Config) (hg : g.Follows c) :
    (c.view (g.pruned config)).EmitsAs I (c.view (g.optimized config)) := by
  have hpruned := (hg.pruned config).1
  exact (hpruned.emitsAs_run I (fun _ _ => Follows.of_fuseStep) (fun _ _ => FuseStep.emitsAs I)
    (optimized_steps config hpruned).1).2

end Graph

end Planner.Flow
