import Planner.Proofs.Flow.Saturation
import Planner.Proofs.Program.Reaching
import Planner.Proofs.Program.Structure

/-! # Reads come behind assignments

Lowering refuses a read without a scheme if nothing assigns the relation before it in the text.  An
edge leads to the next node or back, so what is assigned before a node in the text bounds what is live
before it (`Shows.bounds_assigned`), and nothing is live before the first node
(`Graph.SelfContained`).  Neither pass changes this (`SelfContained.passRun`): what is live before the
node behind a dead first node was live before that one, and a first node that is moved into the next
one leaves there what was live before itself.

So a path from the first node reaches no read without an assignment (`SelfContained.exists_assigned`).
The same is true of the plan: `Visits` are the statements and conditions that its loops may come by,
and where all that is live is assigned, a way through the code keeps it so (`Code.Within.carries`).

Main statement: `reads_assigned`, of the graph of a program, of what any steps of the passes leave of
it, and of the plan. -/

namespace Planner

open Relation Planner.Flow

namespace Flow

namespace Graph

variable {g h : Graph} {c : Code} {a b m n : Node} {name : String} {way : List Node}

/-! ### What is live at the start -/

/-- Nothing is live before the first node. -/
def SelfContained (g : Graph) : Prop :=
  ∀ n, g.nodes.head? = some n → ∀ x, x ∉ g.liveness.value.before n.id

/-- Where every read comes behind an assignment in the text, what is live before a node is assigned
before it in the text, for no edge passes over a node. -/
theorem Shows.bounds_assigned (hg : g.Shows c)
    (hreads : ∀ n ∈ g.nodes, ∀ x ∈ n.uses, ∃ m, g.Latest x m n) :
    Liveness.Bounds g (fun id => { x | ∃ m ∈ g.nodes, m.target = some x ∧ m.id < id })
      (fun id => { x | ∃ m ∈ g.nodes, m.target = some x ∧ m.id ≤ id }) := by
  refine ⟨fun n hn x hx => ?_, fun n hn x hx hne => ?_, fun n hn s hs x hx => ?_⟩
  · obtain ⟨m, hm⟩ := hreads n hn x hx
    exact ⟨m, hm.mem, hm.assigns, hm.earlier⟩
  · obtain ⟨m, hm, htarget, hle⟩ := hx
    refine ⟨m, hm, htarget, Nat.lt_of_le_of_ne hle (fun e => hne ?_)⟩
    rw [← hg.numbered.eq_of_id hm hn e, htarget]
  · obtain ⟨m, hm, htarget, hlt⟩ := hx
    refine ⟨m, hm, htarget, Nat.le_of_not_lt (fun hlt' => ?_)⟩
    have := hg.target_le (mem_successors.mp hs) hm hlt'
    omega

theorem Numbered.head_le (hg : g.Numbered) (hn : g.nodes.head? = some n) (hm : m ∈ g.nodes) :
    n.id ≤ m.id := by
  obtain ⟨rest, hnodes⟩ := List.head?_eq_some_iff.mp hn
  have hincreasing : g.nodes.Pairwise (fun a b => a.id < b.id) := List.pairwise_map.mp hg.increasing
  rw [hnodes, List.pairwise_cons] at hincreasing
  rw [hnodes] at hm
  rcases List.mem_cons.mp hm with rfl | hm
  · exact Nat.le_refl _
  · exact Nat.le_of_lt (hincreasing.1 m hm)

theorem Shows.selfContained (hg : g.Shows c)
    (hreads : ∀ n ∈ g.nodes, ∀ x ∈ n.uses, ∃ m, g.Latest x m n) : g.SelfContained := by
  intro n hn x hx
  have hwithin := Liveness.within_liveness hg.numbered (hg.bounds_assigned hreads)
  obtain ⟨m, hm, _, hlt⟩ := hwithin.before_mem n.id x hx
  have := hg.numbered.head_le hn hm
  omega

/-! ### The passes -/

theorem SelfContained.without (hs : g.SelfContained) (hg : g.Threaded) (hn : n ∈ g.nodes)
    (hdead : g.liveness.value.isDead n = true) : (g.without n.id).SelfContained := by
  intro first hfirst x hx
  have hold : x ∈ g.liveness.value.before first.id :=
    (hg.within_without hn hdead).before_mem first.id x hx
  obtain ⟨pre, post, hnodes⟩ := List.append_of_mem hn
  rw [hg.numbered.nodes_without hnodes] at hfirst
  cases pre with
  | nil =>
      obtain ⟨rest, rfl⟩ := List.head?_eq_some_iff.mp hfirst
      have hbehind := mem_behind_of_edge hg.numbered hn (hg.edge_of_nodes hnodes) hold
      obtain ⟨name, htarget, hname⟩ := isDead_iff.mp hdead
      -- The deleted node was the first one; what it assigned is dead behind it, so it is another name.
      have hne : n.target ≠ some x := target_ne htarget (fun e => hname (e ▸ hbehind))
      exact hs n (by rw [hnodes]; rfl) x (mem_before_of_behind hg.numbered hn hbehind hne)
  | cons m pre => exact hs first (by rw [hnodes]; exact hfirst) x hold

theorem SelfContained.fused (hs : g.SelfContained) (hg : g.Threaded) (hj : g.Chainable a b name) :
    (g.fused a b name).SelfContained := by
  intro first hfirst x hx
  have halike := hj.alike hg
  obtain ⟨pre, post, hnodes⟩ := hj.nodes_eq hg.numbered
  rw [hg.numbered.nodes_fused hnodes] at hfirst
  cases pre with
  | nil =>
      obtain rfl := Option.some.inj hfirst
      have hreader : x ∈ (g.fused a b name).liveness.value.before b.id := hx
      rw [halike.reader_eq] at hreader
      exact hs a (by rw [hnodes]; rfl) x hreader
  | cons m pre =>
      obtain rfl := Option.some.inj hfirst
      have hsplit : g.nodes = (m :: (pre ++ [a])) ++ b :: post := by simp [hnodes]
      have hma : m.id ≠ a.id := hg.numbered.id_ne hnodes m (by simp)
      have hmb : m.id ≠ b.id := hg.numbered.id_ne hsplit m (by simp)
      rw [halike.before_eq m.id hma hmb] at hx
      exact hs m (by rw [hnodes]; rfl) x hx

theorem SelfContained.passStep (hs : g.SelfContained) (hg : g.Follows c) (hstep : g.PassStep h) :
    h.SelfContained := by
  rcases hstep with ⟨n, hn, hdead, rfl⟩ | ⟨a, b, name, hj, rfl⟩
  · exact hs.without hg.shows.threaded hn hdead
  · exact hs.fused hg.shows.threaded (hg.chainable hj)

theorem SelfContained.passRun (hs : g.SelfContained) (hg : g.Follows c)
    (hrun : ReflTransGen PassStep g h) : h.SelfContained := by
  induction hrun with
  | refl => exact hs
  | tail hrun hstep ih => exact ih.passStep (hg.passRun hrun).1 hstep

/-! ### Paths -/

/-- A path along the edges from the first node to a node. -/
structure EntryPath (g : Graph) (way : List Node) (n : Node) : Prop where
  starts : (way ++ [n]).head? = g.nodes.head?
  nodes : ∀ m ∈ way ++ [n], m ∈ g.nodes
  edges : (way ++ [n]).IsChain (fun a b => ⟨a.id, b.id⟩ ∈ g.edges)

/-- A read that a path reaches without an assignment would be live before the first node. -/
theorem SelfContained.exists_assigned (hs : g.SelfContained) (hg : g.Numbered)
    (hpath : g.EntryPath way n) {x : String} (hx : x ∈ n.uses) : ∃ m ∈ way, m.target = some x := by
  by_contra hnone
  have hkeeps : ∀ m ∈ way, m.target ≠ some x := fun m hm e => hnone ⟨m, hm, e⟩
  obtain ⟨first, hfirst⟩ : ∃ first, (way ++ [n]).head? = some first := by
    cases way with
    | nil => exact ⟨n, rfl⟩
    | cons m rest => exact ⟨m, rfl⟩
  have hread : g.ReadPath x first way n := ⟨hfirst, hpath.nodes, hpath.edges, hx, hkeeps⟩
  have hlive := (Liveness.before_iff_readPath hg hread.mem_nodes).mpr ⟨way, n, hread⟩
  exact hs first (hpath.starts.symm.trans hfirst) x hlive

end Graph

end Flow

/-! ### Ways through a plan -/

/-- A statement or a condition that a run comes by: what it assigns, and its plan. -/
structure Visit where
  assigns : Option String
  plan : Plan

/-- What an operator assigns as a statement. -/
def Unary.assigns : Unary → Option String
  | storeTemp name => some name
  | _ => none

/-- What a run of several plans may come by, one after the other.  After each round of a loop comes
its condition, which may lead on or back. -/
inductive Visits : List Plan → List Visit → Prop
  | nil : Visits [] []
  | statement (notes : Notes) (op : Unary) (input : Plan) {rest : List Plan} {path : List Visit}
      (ahead : Visits rest path) :
      Visits (.unary notes op input :: rest) (⟨op.assigns, .unary notes op input⟩ :: path)
  | sequence (notes : Notes) {inner rest : List Plan} {path path' : List Visit}
      (first : Visits inner path) (ahead : Visits rest path') :
      Visits (.nary notes .sequence inner :: rest) (path ++ path')
  | leave (notes : Notes) {body test : Plan} {rest : List Plan} {path path' : List Visit}
      (round : Visits [body] path) (ahead : Visits rest path') :
      Visits (.binary notes .doWhile body test :: rest) (path ++ ⟨none, test⟩ :: path')
  | again (notes : Notes) {body test : Plan} {rest : List Plan} {path path' : List Visit}
      (round : Visits [body] path) (ahead : Visits (.binary notes .doWhile body test :: rest) path') :
      Visits (.binary notes .doWhile body test :: rest) (path ++ ⟨none, test⟩ :: path')

theorem Visits.of_sequence {notes : Notes} {inner : List Plan} {path : List Visit}
    (h : Visits [.nary notes .sequence inner] path) : Visits inner path := by
  cases h with
  | sequence _ first ahead =>
      cases ahead
      rw [List.append_nil]
      exact first

/-- What is assigned behind a visit. -/
def Visit.learn (known : Set String) (v : Visit) : Set String :=
  { x | v.assigns = some x ∨ x ∈ known }

/-- What is assigned behind several visits. -/
def learned (known : Set String) (path : List Visit) : Set String := path.foldl Visit.learn known

/-- Everything that is read on the way is assigned before. -/
def Covered (known : Set String) : List Visit → Prop
  | [] => True
  | v :: path => (∀ x ∈ v.plan.temps, x ∈ known) ∧ Covered (v.learn known) path

theorem Covered.append {known : Set String} {path path' : List Visit} (h : Covered known path)
    (h' : Covered (learned known path) path') : Covered known (path ++ path') := by
  induction path generalizing known with
  | nil => exact h'
  | cons v path ih => exact ⟨h.1, ih h.2 h'⟩

theorem learned_append (known : Set String) (path path' : List Visit) :
    learned known (path ++ path') = learned (learned known path) path' :=
  List.foldl_append

theorem Covered.exists_assigns {known : Set String} {before after : List Visit} {v : Visit}
    (h : Covered known (before ++ v :: after)) {x : String} (hx : x ∈ v.plan.temps) :
    x ∈ known ∨ ∃ u ∈ before, u.assigns = some x := by
  induction before generalizing known with
  | nil => exact Or.inl (h.1 x hx)
  | cons u before ih =>
      rcases ih h.2 with (hu | hknown) | ⟨w, hw, hassigns⟩
      · exact Or.inr ⟨u, List.mem_cons_self, hu⟩
      · exact Or.inl hknown
      · exact Or.inr ⟨w, List.mem_cons_of_mem u hw, hassigns⟩

/-! ### Ways through code -/

namespace Flow

variable {g : Graph} {n test : Node} {body rest : Code} {known : Set String}

/-- What a run comes by at a node. -/
def Node.visit (n : Node) : Visit := ⟨n.target, n.op⟩

/-- What is live before a node, or at the end. -/
def Graph.liveAt (g : Graph) : Option ℕ → Set String
  | some i => { x | x ∈ g.liveness.value.before i }
  | none => ∅

namespace Code

/-- A piece of the code of a graph. -/
structure Within (g : Graph) (c : Code) : Prop where
  nodes : ∀ n ∈ c.nodes, n ∈ g.nodes ∧ n.uses = n.op.temps
  backs : ∀ e ∈ c.backs, e ∈ g.edges
  statements : ∀ n ∈ c.steps, n.IsStatement
  conditions : ∀ n ∈ c.tests, n.target = none

namespace Within

theorem tail_step (h : Within g (step n rest)) : Within g rest :=
  ⟨fun m hm => h.nodes m (List.mem_cons_of_mem n hm), h.backs,
    fun m hm => h.statements m (List.mem_cons_of_mem n hm), h.conditions⟩

theorem body_loop (h : Within g (loop body test rest)) : Within g body :=
  ⟨fun m hm => h.nodes m (List.mem_append_left _ hm),
    fun e he => h.backs e (List.mem_append_left _ he),
    fun m hm => h.statements m (List.mem_append_left _ hm),
    fun m hm => h.conditions m (List.mem_append_left _ hm)⟩

theorem tail_loop (h : Within g (loop body test rest)) : Within g rest :=
  ⟨fun m hm => h.nodes m (List.mem_append_right _ (List.mem_cons_of_mem _ hm)),
    fun e he => h.backs e (List.mem_append_right _ (List.mem_cons_of_mem _ he)),
    fun m hm => h.statements m (List.mem_append_right _ hm),
    fun m hm => h.conditions m (List.mem_append_right _ (List.mem_cons_of_mem _ hm))⟩

end Within

end Code

namespace Graph

theorem Numbered.visit (hg : g.Numbered) (hn : n ∈ g.nodes) (huses : n.uses = n.op.temps)
    (hknown : g.liveAt (some n.id) ⊆ known) :
    (∀ x ∈ n.visit.plan.temps, x ∈ known) ∧
      ∀ j, ⟨n.id, j⟩ ∈ g.edges → g.liveAt (some j) ⊆ n.visit.learn known := by
  refine ⟨fun x hx => hknown (mem_before_of_uses hg hn (huses ▸ hx)), fun j hedge x hx => ?_⟩
  by_cases htarget : n.target = some x
  · exact Or.inl htarget
  · have hbehind := mem_behind_of_edge hg hn hedge hx
    exact Or.inr (hknown (mem_before_of_behind hg hn hbehind htarget))

theorem Threaded.visit_next (hg : g.Threaded) (hn : n ∈ g.nodes) (huses : n.uses = n.op.temps)
    (hknown : g.liveAt (some n.id) ⊆ known) {before behind : List ℕ}
    (hids : g.ids = before ++ n.id :: behind) : g.liveAt behind.head? ⊆ n.visit.learn known := by
  cases hnext : behind.head? with
  | none => exact Set.empty_subset _
  | some j =>
      have hspine := (mem_spine_iff_head? hg.numbered.nodup hids).mpr hnext
      exact (hg.numbered.visit hn huses hknown).2 j (hg.spine_mem _ hspine)

end Graph

theorem Node.IsStatement.visits {plans : List Plan} {path : List Visit} (hn : n.IsStatement)
    (h : Visits (n.op :: plans) path) : ∃ path', path = n.visit :: path' ∧ Visits plans path' := by
  rcases hn with ⟨name, p, htarget, hop⟩ | ⟨key, p, htarget, hop⟩
  · rw [hop] at h
    cases h with
    | statement _ _ _ ahead => exact ⟨_, by rw [Node.visit, htarget, hop]; rfl, ahead⟩
  · rw [hop] at h
    cases h with
    | statement _ _ _ ahead => exact ⟨_, by rw [Node.visit, htarget, hop]; rfl, ahead⟩

/-- A way from a point of the code to another one is covered if all that is live at the first one is
assigned, and then all that is live at the second one is assigned behind it. -/
def Graph.Carries (g : Graph) (start : Option ℕ) (plans : List Plan) (stop : Option ℕ) : Prop :=
  ∀ known path, g.liveAt start ⊆ known → Visits plans path →
    Covered known path ∧ g.liveAt stop ⊆ learned known path

theorem Graph.Numbered.covered_visit (hg : g.Numbered) (hn : n ∈ g.nodes) (huses : n.uses = n.op.temps)
    (hknown : g.liveAt (some n.id) ⊆ known) {path : List Visit} {stop : Option ℕ}
    (hpath : Covered (n.visit.learn known) path ∧ g.liveAt stop ⊆ learned (n.visit.learn known) path) :
    Covered known (n.visit :: path) ∧ g.liveAt stop ⊆ learned known (n.visit :: path) :=
  ⟨⟨(hg.visit hn huses hknown).1, hpath.1⟩, hpath.2⟩

/-- The rounds of a loop: the test leads on to what comes behind the loop or back to its first node,
and all that is live there is assigned. -/
theorem Code.Within.carries_loop (hg : g.Threaded) (hc : (loop body test rest).Within g)
    {stop : Option ℕ} {before behind : List ℕ} (hids : g.ids = before ++ test.id :: behind)
    (hbody : g.Carries (some (header body test)) body.plans (some test.id))
    (hrest : g.Carries behind.head? rest.plans stop) :
    g.Carries (some (header body test)) (loop body test rest).plans stop := by
  intro known path hknown hpath
  have htest : test ∈ (loop body test rest).nodes := List.mem_append_right _ List.mem_cons_self
  have hback : ⟨test.id, header body test⟩ ∈ g.edges :=
    hc.backs _ (List.mem_append_right _ List.mem_cons_self)
  have hvisit : test.visit = ⟨none, test.op⟩ := by
    rw [Node.visit, hc.conditions test (List.mem_append_right _ List.mem_cons_self)]
  obtain ⟨hmem, huses⟩ := hc.nodes test htest
  -- A way that goes back is a shorter way through the same loop, so the induction is on the way.
  generalize hplans : (loop body test rest).plans = plans at hpath
  induction hpath generalizing known with
  | nil => cases hplans
  | statement => cases hplans
  | sequence => cases hplans
  | leave notes round ahead =>
      cases hplans
      obtain ⟨hround, hend⟩ := hbody known _ hknown round.of_sequence
      have hnext := hg.visit_next hmem huses hend hids
      rw [← hvisit]
      have hahead := hg.numbered.covered_visit hmem huses hend (hrest _ _ hnext ahead)
      exact ⟨hround.append hahead.1, learned_append _ _ _ ▸ hahead.2⟩
  | again notes round ahead _ ih =>
      cases hplans
      obtain ⟨hround, hend⟩ := hbody known _ hknown round.of_sequence
      have hnext := (hg.numbered.visit hmem huses hend).2 _ hback
      rw [← hvisit]
      have hahead := hg.numbered.covered_visit hmem huses hend (ih _ hnext rfl)
      exact ⟨hround.append hahead.1, learned_append _ _ _ ▸ hahead.2⟩

/-- **Every way through the code is covered** if all that is live where it begins is assigned.  Here
`ahead` lists the numbers of the nodes behind the code. -/
theorem Code.Within.carries (hg : g.Threaded) {c : Code} (hc : c.Within g) {before ahead : List ℕ}
    (hids : g.ids = before ++ (c.ids ++ ahead)) :
    g.Carries (c.ids ++ ahead).head? c.plans ahead.head? := by
  induction c generalizing before ahead with
  | done =>
      intro known path hknown hpath
      cases hpath
      exact ⟨trivial, hknown⟩
  | step n rest ih =>
      intro known path hknown hpath
      obtain ⟨path', rfl, hahead⟩ := (hc.statements n List.mem_cons_self).visits hpath
      obtain ⟨hmem, huses⟩ := hc.nodes n List.mem_cons_self
      have hids' : g.ids = (before ++ [n.id]) ++ (rest.ids ++ ahead) := by simp [hids]
      have hnext := hg.visit_next hmem huses hknown hids
      exact hg.numbered.covered_visit hmem huses hknown (ih hc.tail_step hids' _ _ hnext hahead)
  | loop body test rest ihb ihr =>
      have hsplit : g.ids = (before ++ body.ids) ++ test.id :: (rest.ids ++ ahead) := by simp [hids]
      have hinner : g.ids = before ++ (body.ids ++ test.id :: (rest.ids ++ ahead)) := by simp [hids]
      have houter : g.ids = (before ++ body.ids ++ [test.id]) ++ (rest.ids ++ ahead) := by simp [hids]
      have hbody := ihb hc.body_loop hinner
      have hrest := ihr hc.tail_loop houter
      rw [head?_append_cons] at hbody
      rw [ids_loop, List.append_assoc, List.cons_append, head?_append_cons]
      exact hc.carries_loop hg hsplit hbody hrest

theorem Graph.SelfContained.covered {c : Code} (hs : g.SelfContained) (hg : g.Follows c)
    {path : List Visit} (hpath : Visits [.nary {} .sequence (c.view g).plans] path) :
    Covered ∅ path := by
  have hwithin : (c.view g).Within g :=
    ⟨fun n hn => ⟨hg.shows.nodes_eq ▸ hn, hg.proper.uses_eq n hn⟩,
      fun e he => (hg.shows.mem_edges e).mpr (Or.inr he), hg.proper.statements, hg.proper.conditions⟩
  have hids : g.ids = [] ++ ((c.view g).ids ++ []) := by simp [hg.shows.ids_eq]
  refine (hwithin.carries hg.shows.threaded hids ∅ path ?_ hpath.of_sequence).1
  rw [List.append_nil, Code.ids, List.head?_map, ← hg.shows.nodes_eq]
  cases hfirst : g.nodes.head? with
  | none => exact Set.empty_subset _
  | some n => exact fun x hx => hs n hfirst x hx

end Flow

/-! ### Programs -/

namespace Program

variable {p : Program} {cells : Cells} {g : Graph}

theorem exists_latest (h : (p.toGraph cells).value = .ok g)
    (hbare : ∀ q ∈ p.written, ∀ read ∈ q.scans, read.2.isEmpty = true) :
    ∀ n ∈ g.nodes, ∀ x ∈ n.uses, ∃ m, g.Latest x m n := by
  intro n hn x hx
  obtain ⟨hshows, hcells⟩ := toGraph_shows h
  obtain ⟨temps, hbinds⟩ := toGraph_binds h
  rw [← hcells] at hbinds
  have hreads := hbinds.readsLatest hshows (List.nil_append _).symm (fun _ _ hlookup => by cases hlookup)
  obtain ⟨written, hwritten, hscans⟩ := exists_mem_of_forall₂ hreads hn
  rw [(toGraph_follows h).uses_eq hn, Plan.mem_temps_iff_scans] at hx
  obtain ⟨scheme, hread⟩ := hx
  obtain ⟨bare, hmem, hlatest⟩ := exists_mem_of_forall₂ hscans hread
  obtain ⟨m, hm, _⟩ := hlatest.latest (hbare written hwritten bare hmem)
  exact ⟨m, hm⟩

/-- **Nothing is read before it is assigned.**  If the reads of a program are written without schemes,
nothing is live before the first node of its graph, and on every path from there a read comes behind
an assignment; both are still so whatever dead nodes are deleted and neighbours are joined.  So on
every way through the plan a read comes behind an assignment. -/
theorem reads_assigned (h : (p.toGraph cells).value = .ok g)
    (hbare : ∀ q ∈ p.written, ∀ read ∈ q.scans, read.2.isEmpty = true) :
    (∀ left, ReflTransGen Graph.PassStep g left →
      (∀ first, left.nodes.head? = some first → left.liveness.value.before first.id = .empty) ∧
      ∀ way n, left.EntryPath way n → ∀ x ∈ n.op.temps, ∃ m ∈ way, m.target = some x) ∧
    ∀ config, ∃ plan cells', (p.compile cells config).value = .ok (plan, cells') ∧
      ∀ path, Visits [plan] path → ∀ before v after, path = before ++ v :: after →
        ∀ x ∈ v.plan.temps, ∃ u ∈ before, u.assigns = some x := by
  have hg := toGraph_follows h
  have hstart := (toGraph_shows h).1.selfContained (exists_latest h hbare)
  refine ⟨fun left hrun => ?_, fun config => ?_⟩
  · have hleft := (hg.passRun hrun).1
    have hself := hstart.passRun hg hrun
    refine ⟨fun first hfirst => SortedSet.ext_mem fun x => ?_, fun way n hpath x hx => ?_⟩
    · exact ⟨fun hx => absurd hx (hself first hfirst x),
        fun hx => absurd hx (SortedSet.not_mem_empty x)⟩
    · have hn : n ∈ left.nodes := hpath.nodes n (List.mem_append_right _ List.mem_cons_self)
      exact hself.exists_assigned hleft.shows.numbered hpath (hleft.uses_eq hn ▸ hx)
  · refine ⟨_, _, compile_value config h, fun path hpath before v after hsplit x hx => ?_⟩
    have hself := hstart.passRun hg (hg.passRun_optimized config)
    have hcovered := hself.covered (hg.optimized config).1 hpath
    rw [hsplit] at hcovered
    exact (hcovered.exists_assigns hx).resolve_left (Set.notMem_empty x)

/-- A way through the sample program that takes the inner loop twice. -/
theorem visits_nested : ∃ plan cells' path,
    (nested.compile .empty { deadCode := false, chaining := false }).value = .ok (plan, cells') ∧
      Visits [plan] path ∧ path.length = 10 := by
  let x : Plan := .leaf {} (.scanTemp "x" .empty)
  let z : Plan := .leaf {} (.scanTemp "z" .empty)
  let inner : List Plan := [.unary {} (.storeTemp "y") x, .unary {} (.storeTemp "z") x,
    .unary {} (.store ⟨"public", "adhoc", "r"⟩) z]
  have hround : Visits [.nary {} .sequence inner] _ := .sequence {} (.statement {} (.storeTemp "y") x
    (.statement {} (.storeTemp "z") x (.statement {} (.store ⟨"public", "adhoc", "r"⟩) z .nil))) .nil
  have hinner : Visits [Block.loop inner x] _ := .again {} hround (.leave {} hround .nil)
  have houter : Visits [Block.loop [Block.loop inner x] x] _ := .leave {} (.sequence {} hinner .nil) .nil
  exact ⟨_, _, _, rfl, .sequence {} (.statement {} (.storeTemp "x") (.leaf {} .singleton) houter) .nil,
    rfl⟩

theorem reads_assigned_nested : ∃ g plan cells' path, (nested.toGraph .empty).value = .ok g ∧
    (∀ q ∈ nested.written, ∀ read ∈ q.scans, read.2.isEmpty = true) ∧
    (nested.compile .empty { deadCode := false, chaining := false }).value = .ok (plan, cells') ∧
    Visits [plan] path ∧ path.length = 10 ∧
    ∀ before v after, path = before ++ v :: after →
      ∀ x ∈ v.plan.temps, ∃ u ∈ before, u.assigns = some x := by
  have hgraph : ∃ g, (nested.toGraph .empty).value = .ok g := ⟨_, rfl⟩
  have hbare : ∀ q ∈ nested.written, ∀ read ∈ q.scans, read.2.isEmpty = true := by decide
  obtain ⟨g, h⟩ := hgraph
  obtain ⟨plan, cells', path, hplan, hpath, hlength⟩ := visits_nested
  obtain ⟨plan', _, hplan', hcovered⟩ :=
    (reads_assigned h hbare).2 { deadCode := false, chaining := false }
  obtain ⟨rfl, rfl⟩ := Prod.mk.inj (Except.ok.inj (hplan.symm.trans hplan'))
  exact ⟨g, plan, _, path, h, hbare, hplan, hpath, hlength, hcovered path hpath⟩

end Program

end Planner
