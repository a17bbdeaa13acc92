import Planner.Proofs.Flow.Threaded

/-! # Once each is enough

Of the two passes, first one deletes dead nodes until there is none, then the other one joins
neighbours until there is no pair.  Joining makes no node dead: the first node of a pair leads only to
the second one, and that can only be reached from there (`Chainable.target_eq`,
`Chainable.source_eq`), so once the first one is moved into the second one the same is live around
every other node and behind the second one, and before the second one what was live before the first
one (`Chainable.alike`).  Both inclusions hold because liveness lies within every bound:
`Chainable.bounds_fused` reads the old solution in the new graph, `Chainable.bounds_unfused` the new
one in the old graph.

Main statement: `eliminate_chain_saturates`, after both passes neither of them finds anything left to
do. -/

namespace Planner.Flow.Graph

open Relation

variable {g h : Graph} {c : Code} {a b m n : Node} {name : String} {i j : ℕ}

/-! ### Pairs without a way in or out -/

/-- The second node comes right behind the first one and reads what that assigns, which is dead behind
it; it begins no loop, and the first one closes none. -/
structure Chainable (g : Graph) (a b : Node) (name : String) : Prop extends Joinable g a b name where
  closes : g.isTerminator a.id = false

theorem chainable_of_firstLink? {link : Link} (hl : g.firstLink? g.liveness.value = some link) :
    ∃ a b name, link = ⟨a.id, b.id, name⟩ ∧ g.Chainable a b name := by
  obtain ⟨⟨a, b⟩, hab, hlink⟩ := List.exists_of_findSome?_eq_some hl
  obtain ⟨name, hname, hj⟩ := joinable_of_link? hab hlink
  refine ⟨a, b, name, hname, hj, ?_⟩
  unfold link? at hlink
  split_ifs at hlink with hedge
  rw [Bool.or_eq_true, not_or, Bool.not_eq_true, Bool.not_eq_true] at hedge
  exact hedge.2

theorem Follows.chainable (hg : g.Follows c) (hj : g.Joinable a b name) : g.Chainable a b name := by
  refine ⟨hj, ?_⟩
  have hmem : a ∈ (c.view g).nodes := hg.shows.nodes_eq ▸ hj.writer_mem
  have htests := hg.proper.not_mem_tests hg.shows.nodup hmem hj.target
  rw [isTerminator, decide_eq_false_iff_not, hg.shows.loopsClosed (List.mem_map_of_mem hmem),
    Code.closes_eq_zero_of_not_mem_tests htests]
  exact Nat.lt_irrefl 0

theorem eq_singleton_of_length_le_one {l : List ℕ} (hl : l.length ≤ 1) (hi : i ∈ l) : l = [i] := by
  cases l with
  | nil => cases hi
  | cons k rest =>
      have hrest : rest = [] := List.eq_nil_of_length_eq_zero (by simpa using hl)
      subst hrest
      rw [List.mem_singleton.mp hi]

/-- What is live before the nodes of the old graph, from what is live in the new one. -/
def unfusedBefore (l : Liveness) (a b : Node) (id : ℕ) : NameSet :=
  if id = a.id then l.before b.id
  else if id = b.id then Liveness.through b (l.behind b.id)
  else l.before id

/-- What is live behind the nodes of the old graph, from what is live in the new one. -/
def unfusedBehind (l : Liveness) (a b : Node) (id : ℕ) : NameSet :=
  if id = a.id then Liveness.through b (l.behind b.id) else l.behind id

namespace Chainable

variable (hj : g.Chainable a b name) (hg : g.Threaded)

include hj hg

theorem edge : ⟨a.id, b.id⟩ ∈ g.edges := hg.spine_mem _ hj.adjacent

theorem predecessors_eq : g.predecessors b.id = [a.id] := by
  have hheader := hj.header
  rw [isHeader, decide_eq_false_iff_not, loopsOpened, inDegree] at hheader
  have hlength : (g.predecessors b.id).length ≤ 1 := by omega
  exact eq_singleton_of_length_le_one hlength (mem_predecessors.mpr (hj.edge hg))

theorem successors_eq : g.successors a.id = [b.id] := by
  have hcloses := hj.closes
  rw [isTerminator, decide_eq_false_iff_not, loopsClosed, outDegree] at hcloses
  have hlength : (g.successors a.id).length ≤ 1 := by omega
  exact eq_singleton_of_length_le_one hlength (mem_successors.mpr (hj.edge hg))

theorem source_eq (hedge : ⟨i, b.id⟩ ∈ g.edges) : i = a.id := by
  have hmem := mem_predecessors.mpr hedge
  rw [hj.predecessors_eq hg] at hmem
  exact List.mem_singleton.mp hmem

theorem target_eq (hedge : ⟨a.id, i⟩ ∈ g.edges) : i = b.id := by
  have hmem := mem_successors.mpr hedge
  rw [hj.successors_eq hg] at hmem
  exact List.mem_singleton.mp hmem

/-! ### The graph with the pair joined -/

theorem mem_nodes_fused :
    m ∈ (g.fused a b name).nodes ↔
      m = g.absorbed a b name ∨ (m ∈ g.nodes ∧ m.id ≠ a.id ∧ m.id ≠ b.id) := by
  have hab := hj.id_ne hg.numbered
  rw [fused, mem_nodes_without]
  simp only [Graph.replaceNode, List.mem_map]
  constructor
  · rintro ⟨⟨k, hk, rfl⟩, hid⟩
    split_ifs at hid ⊢ with hkb
    · exact Or.inl rfl
    · exact Or.inr ⟨hk, hid, hkb⟩
  · rintro (rfl | ⟨hm, hma, hmb⟩)
    · exact ⟨⟨b, hj.reader_mem, if_pos rfl⟩, hab.symm⟩
    · exact ⟨⟨m, hm, if_neg hmb⟩, hma⟩

/-- What led to the first node leads to the second one, and nothing else does. -/
theorem mem_edges_fused :
    ⟨i, j⟩ ∈ (g.fused a b name).edges ↔ i ≠ a.id ∧
      ((j = b.id ∧ ⟨i, a.id⟩ ∈ g.edges) ∨ (j ≠ a.id ∧ j ≠ b.id ∧ ⟨i, j⟩ ∈ g.edges)) := by
  have hab := hj.id_ne hg.numbered
  have hnext : g.following? a.id = some b.id :=
    (hg.numbered.following?_iff (List.mem_map_of_mem hj.writer_mem)).mpr hj.adjacent
  have hids := ids_replaceNode { g with
    cells := (b.op.substitute name (a.stored name) g.cells).2.2 } (g.absorbed a b name)
  rw [fused, mem_edges_without, following?, hids]
  simp only [Graph.replaceNode]
  rw [following?] at hnext
  constructor
  · rintro ⟨hia, hja, hedge | ⟨hedge, hj'⟩⟩
    · refine ⟨hia, Or.inr ⟨hja, fun e => hia ?_, hedge⟩⟩
      exact hj.source_eq hg (e ▸ hedge)
    · exact ⟨hia, Or.inl ⟨Option.some.inj (hj'.symm.trans hnext), hedge⟩⟩
  · rintro ⟨hia, ⟨rfl, hedge⟩ | ⟨hja, _, hedge⟩⟩
    · exact ⟨hia, hab.symm, Or.inr ⟨hedge, hnext⟩⟩
    · exact ⟨hia, hja, Or.inl hedge⟩

/-! ### The old solution in the new graph -/

theorem bounds_fused : Liveness.Bounds (g.fused a b name)
    (fun id => { x | x ∈ g.liveness.value.before (if id = b.id then a.id else id) })
    (fun id => { x | x ∈ g.liveness.value.behind id }) := by
  have hnum := hg.numbered
  -- What is live before the reader is live before the writer, up to the name.
  have hpass : ∀ x ∈ g.liveness.value.before b.id, x ≠ name → x ∈ g.liveness.value.before a.id := by
    intro x hx hne
    have hbehind := mem_behind_of_edge hnum hj.writer_mem (hj.edge hg) hx
    exact mem_before_of_behind hnum hj.writer_mem hbehind (target_ne hj.target hne)
  refine ⟨fun n hn x hx => ?_, fun n hn x hx hne => ?_, fun n hn s hs x hx => ?_⟩
  · simp only [Set.mem_ofPred_eq]
    rcases (hj.mem_nodes_fused hg).mp hn with rfl | ⟨hn, _, hnb⟩
    · rw [absorbed, if_pos rfl]
      simp only [absorbed, SortedSet.mem_union, SortedSet.mem_erase] at hx
      rcases hx with ⟨hx, hne⟩ | hx
      · exact hpass x (mem_before_of_uses hnum hj.reader_mem hx) hne
      · exact mem_before_of_uses hnum hj.writer_mem hx
    · rw [if_neg hnb]
      exact mem_before_of_uses hnum hn hx
  · simp only [Set.mem_ofPred_eq] at hx ⊢
    rcases (hj.mem_nodes_fused hg).mp hn with rfl | ⟨hn, _, hnb⟩
    · rw [absorbed, if_pos rfl]
      refine hpass x (mem_before_of_behind hnum hj.reader_mem hx hne) ?_
      exact fun e => hj.dead (e ▸ hx)
    · rw [if_neg hnb]
      exact mem_before_of_behind hnum hn hx hne
  · simp only [Set.mem_ofPred_eq] at hx ⊢
    obtain ⟨k, hk, hid⟩ : ∃ k ∈ g.nodes, k.id = n.id := by
      rcases (hj.mem_nodes_fused hg).mp hn with rfl | ⟨hn, _, _⟩
      · exact ⟨b, hj.reader_mem, rfl⟩
      · exact ⟨n, hn, rfl⟩
    rw [← hid] at hs ⊢
    rw [mem_successors, hj.mem_edges_fused hg] at hs
    obtain ⟨_, ⟨rfl, hedge⟩ | ⟨_, hsb, hedge⟩⟩ := hs
    · rw [if_pos rfl] at hx
      exact mem_behind_of_edge hnum hk hedge hx
    · rw [if_neg hsb] at hx
      exact mem_behind_of_edge hnum hk hedge hx

/-! ### The new solution in the old graph -/

/-- What is live in the new graph bounds what was live in the old one.  Before the second node this is
what its equation makes of what is live behind it, and the first node has nothing else behind it. -/
theorem bounds_unfused : Liveness.Bounds g
    (fun id => { x | x ∈ unfusedBefore (g.fused a b name).liveness.value a b id })
    (fun id => { x | x ∈ unfusedBehind (g.fused a b name).liveness.value a b id }) := by
  have hab := hj.id_ne hg.numbered
  have hnum := (hg.fused hj.writer_mem b name).numbered
  have hreader : g.absorbed a b name ∈ (g.fused a b name).nodes :=
    (hj.mem_nodes_fused hg).mpr (Or.inl rfl)
  have hother : ∀ n ∈ g.nodes, n.id ≠ a.id → n.id ≠ b.id → n ∈ (g.fused a b name).nodes :=
    fun n hn hna hnb => (hj.mem_nodes_fused hg).mpr (Or.inr ⟨hn, hna, hnb⟩)
  have hused : ∀ x, (x ∈ b.uses ∧ x ≠ name) ∨ x ∈ a.uses →
      x ∈ (g.fused a b name).liveness.value.before b.id := by
    intro x hx
    refine mem_before_of_uses hnum hreader ?_
    simpa only [absorbed, SortedSet.mem_union, SortedSet.mem_erase] using hx
  refine ⟨fun n hn x hx => ?_, fun n hn x hx hne => ?_, fun n hn s hs x hx => ?_⟩
  · simp only [Set.mem_ofPred_eq, unfusedBefore]
    split_ifs with hna hnb
    · obtain rfl := hg.numbered.eq_of_id hn hj.writer_mem hna
      exact hused x (Or.inr hx)
    · obtain rfl := hg.numbered.eq_of_id hn hj.reader_mem hnb
      exact Liveness.mem_through.mpr (Or.inl hx)
    · exact mem_before_of_uses hnum (hother n hn hna hnb) hx
  · simp only [Set.mem_ofPred_eq, unfusedBefore, unfusedBehind] at hx ⊢
    split_ifs at hx ⊢ with hna hnb
    · obtain rfl := hg.numbered.eq_of_id hn hj.writer_mem hna
      have hxn : x ≠ name := fun e => hne (e ▸ hj.target)
      rcases Liveness.mem_through.mp hx with hx | ⟨hx, hxb⟩
      · exact hused x (Or.inl ⟨hx, hxn⟩)
      · exact mem_before_of_behind hnum hreader hx hxb
    · obtain rfl := hg.numbered.eq_of_id hn hj.reader_mem hnb
      exact Liveness.mem_through.mpr (Or.inr ⟨hx, hne⟩)
    · exact mem_before_of_behind hnum (hother n hn hna hnb) hx hne
  · rw [mem_successors] at hs
    simp only [Set.mem_ofPred_eq, unfusedBefore, unfusedBehind] at hx ⊢
    by_cases hna : n.id = a.id
    · rw [hna] at hs
      obtain rfl := hj.target_eq hg hs
      rw [if_neg hab.symm, if_pos rfl] at hx
      rwa [if_pos hna]
    · have hsb : s ≠ b.id := fun e => hna (hj.source_eq hg (e ▸ hs))
      obtain ⟨k, hk, hid⟩ : ∃ k ∈ (g.fused a b name).nodes, k.id = n.id := by
        by_cases hnb : n.id = b.id
        · exact ⟨_, hreader, hnb.symm⟩
        · exact ⟨n, hother n hn hna hnb, rfl⟩
      rw [if_neg hna, ← hid]
      by_cases hsa : s = a.id
      · rw [if_pos hsa] at hx
        refine mem_behind_of_edge hnum hk ((hj.mem_edges_fused hg).mpr ?_) hx
        exact ⟨hid ▸ hna, Or.inl ⟨rfl, hid ▸ hsa ▸ hs⟩⟩
      · rw [if_neg hsa, if_neg hsb] at hx
        refine mem_behind_of_edge hnum hk ((hj.mem_edges_fused hg).mpr ?_) hx
        exact ⟨hid ▸ hna, Or.inr ⟨hsa, hsb, hid ▸ hs⟩⟩

end Chainable

/-! ### What is live once a pair is joined -/

/-- Around every node but those of a link the same is live in both graphs, behind the reader too, and
before the reader what was live before the writer. -/
structure LiveAlike (g h : Graph) (link : Link) : Prop where
  before_eq : ∀ id, id ≠ link.writer → id ≠ link.reader →
    h.liveness.value.before id = g.liveness.value.before id
  behind_eq : ∀ id, id ≠ link.writer → h.liveness.value.behind id = g.liveness.value.behind id
  reader_eq : h.liveness.value.before link.reader = g.liveness.value.before link.writer

/-- The two solutions lie within each other. -/
theorem Chainable.alike (hj : g.Chainable a b name) (hg : g.Threaded) :
    g.LiveAlike (g.fused a b name) ⟨a.id, b.id, name⟩ := by
  have hab := hj.id_ne hg.numbered
  have hnum := (hg.fused hj.writer_mem b name).numbered
  have hnew := Liveness.within_liveness hnum (hj.bounds_fused hg)
  have hold := Liveness.within_liveness hg.numbered (hj.bounds_unfused hg)
  refine ⟨fun id hia hib => ?_, fun id hia => ?_, ?_⟩
  · refine SortedSet.ext_mem (fun x => ⟨fun hx => ?_, fun hx => ?_⟩)
    · have := hnew.before_mem id x hx
      rwa [Set.mem_ofPred_eq, if_neg hib] at this
    · have := hold.before_mem id x hx
      rwa [Set.mem_ofPred_eq, unfusedBefore, if_neg hia, if_neg hib] at this
  · refine SortedSet.ext_mem (fun x => ⟨fun hx => hnew.behind_mem id x hx, fun hx => ?_⟩)
    have := hold.behind_mem id x hx
    rwa [Set.mem_ofPred_eq, unfusedBehind, if_neg hia] at this
  · refine SortedSet.ext_mem (fun x => ⟨fun hx => ?_, fun hx => ?_⟩)
    · have := hnew.before_mem b.id x hx
      rwa [Set.mem_ofPred_eq, if_pos rfl] at this
    · have := hold.before_mem a.id x hx
      rwa [Set.mem_ofPred_eq, unfusedBefore, if_pos rfl] at this

theorem Chainable.not_deadStep (hj : g.Chainable a b name) (hg : g.Threaded)
    (hstop : ∀ k, ¬ g.DeadStep k) : ∀ k, ¬ (g.fused a b name).DeadStep k := by
  have hbehind := (hj.alike hg).behind_eq
  have hnum := hj.id_ne hg.numbered
  rw [not_deadStep_iff] at hstop ⊢
  intro n hn
  rcases (hj.mem_nodes_fused hg).mp hn with rfl | ⟨hn, hna, _⟩
  · have := hstop b hj.reader_mem
    rw [Liveness.isDead] at this ⊢
    rw [absorbed, hbehind b.id hnum.symm]
    exact this
  · have := hstop n hn
    rw [Liveness.isDead] at this ⊢
    rw [hbehind n.id hna]
    exact this

/-! ### Runs of the pass -/

/-- Joins the first pair that can be joined. -/
def ChainStep (g h : Graph) : Prop :=
  ∃ link, g.firstLink? g.liveness.value = some link ∧
    (g.inline link.writer link.reader link.name).value = .ok h

theorem ChainStep.eq_fused (hg : g.Numbered) {link : Link}
    (hl : g.firstLink? g.liveness.value = some link)
    (hi : (g.inline link.writer link.reader link.name).value = .ok h) :
    ∃ a b name, link = ⟨a.id, b.id, name⟩ ∧ g.Chainable a b name ∧ h = g.fused a b name := by
  obtain ⟨a, b, name, rfl, hj⟩ := chainable_of_firstLink? hl
  obtain ⟨writer, reader, hw, hr, rfl⟩ := inline_eq_ok hi
  have hwriter := (hg.node?_of_mem hj.writer_mem).symm.trans hw
  have hreader := (hg.node?_of_mem hj.reader_mem).symm.trans hr
  rw [Option.some.injEq] at hwriter hreader
  exact ⟨a, b, name, rfl, hj, by rw [hwriter, hreader]⟩

theorem ChainStep.stopped (hstep : g.ChainStep h) (hg : g.Threaded) (hstop : ∀ k, ¬ g.DeadStep k) :
    h.Threaded ∧ ∀ k, ¬ h.DeadStep k := by
  obtain ⟨link, hl, hi⟩ := hstep
  obtain ⟨a, b, name, _, hj, rfl⟩ := ChainStep.eq_fused hg.numbered hl hi
  exact ⟨hg.fused hj.writer_mem b name, hj.not_deadStep hg hstop⟩

theorem chainRun_stopped (hrun : ReflTransGen ChainStep g h) (hg : g.Threaded)
    (hstop : ∀ k, ¬ g.DeadStep k) : h.Threaded ∧ ∀ k, ¬ h.DeadStep k := by
  induction hrun with
  | refl => exact ⟨hg, hstop⟩
  | tail _ hstep ih => exact hstep.stopped ih.1 ih.2

theorem length_nodes_fused (name : String) (ha : a ∈ g.nodes) (hab : a.id ≠ b.id) :
    (g.fused a b name).nodes.length < g.nodes.length := by
  have hmem : a ∈ ({ g with
      cells := (b.op.substitute name (a.stored name) g.cells).2.2 }.replaceNode
        (g.absorbed a b name)).nodes :=
    List.mem_map.mpr ⟨a, ha, if_neg hab⟩
  refine (length_nodes_without hmem).trans_eq ?_
  simp [Graph.replaceNode]

/-- Where joining does not fail, it is a run of its steps; each takes a node away, so there is room for
enough of them to leave no pair. -/
theorem chainWithin_run (hg : g.Threaded) {fuel count total : ℕ} (hfuel : g.nodes.length < fuel)
    (h' : (g.chainWithin fuel count).value = (h, .ok total)) :
    ReflTransGen ChainStep g h ∧ h.firstLink? h.liveness.value = none := by
  induction fuel generalizing g count with
  | zero => omega
  | succ fuel ih =>
      simp only [Graph.chainWithin, Logged.value_bind] at h'
      cases hl : g.firstLink? g.liveness.value with
      | none =>
          rw [hl] at h'
          obtain ⟨rfl, _⟩ := Prod.mk.inj h'
          exact ⟨.refl, hl⟩
      | some link =>
          rw [hl] at h'
          simp only [Logged.value_bind] at h'
          cases hi : (g.inline link.writer link.reader link.name).value with
          | error e =>
              rw [hi] at h'
              cases (Prod.mk.inj h').2
          | ok k =>
              rw [hi] at h'
              obtain ⟨a, b, name, _, hj, rfl⟩ := ChainStep.eq_fused hg.numbered hl hi
              have hlt := length_nodes_fused name hj.writer_mem (hj.id_ne hg.numbered)
              obtain ⟨hrun, hnone⟩ := ih (hg.fused hj.writer_mem b name) (by omega) h'
              exact ⟨.head ⟨link, hl, hi⟩ hrun, hnone⟩

theorem chain_of_firstLink? (h : g.firstLink? g.liveness.value = none) :
    g.chain.value = (g, .ok 0) := by
  rw [chain_value, Graph.chainWithin]
  simp only [Logged.value_bind, h, Logged.value_pure]

/-- **One run of each pass is enough.**  After both, the passes find nothing left to do, for joining
the pair that is chosen leaves the same live around every other node. -/
theorem eliminate_chain_saturates (hg : g.Built) {pruned left : Graph} {removed fused : ℕ}
    (he : g.eliminate.value = (pruned, .ok removed)) (hc : pruned.chain.value = (left, .ok fused)) :
    left.eliminate.value = (left, .ok 0) ∧ left.chain.value = (left, .ok 0) ∧
      ∀ k : Graph, k.Built → ∀ link k', k.firstLink? k.liveness.value = some link →
        (k.inline link.writer link.reader link.name).value = .ok k' → k.LiveAlike k' link := by
  have hpruned : pruned.Threaded := by
    have := hg.eliminate.threaded
    rwa [he] at this
  have hstop : ∀ k, ¬ pruned.DeadStep k := by
    have := g.eliminate_stops
    rwa [he] at this
  rw [chain_value] at hc
  obtain ⟨hrun, hnone⟩ := chainWithin_run hpruned (Nat.lt_succ_self _) hc
  refine ⟨eliminate_of_not_deadStep (chainRun_stopped hrun hpruned hstop).2,
    chain_of_firstLink? hnone, fun k hk link k' hl hi => ?_⟩
  obtain ⟨a, b, name, rfl, hj, rfl⟩ := ChainStep.eq_fused hk.numbered hl hi
  exact hj.alike hk.threaded

/-- A loop in which an assignment is read by the next one and that by a store, behind an assignment
that nothing reads. -/
def relay : Graph :=
  let read (name : String) : Plan := .leaf {} (.scanTemp name .empty)
  let g := Graph.empty.withNode (.unary {} (.storeTemp "w") (.leaf {} .singleton)) (some "w") .empty
  let g := g.withNode (.unary {} (.storeTemp "x") (.leaf {} .singleton)) (some "x") .empty
  let g := g.withNode (.unary {} (.storeTemp "y") (read "x")) (some "y") (.ofList ["x"])
  let g := g.withNode (.unary {} (.store ⟨"public", "adhoc", "r"⟩) (read "y")) none (.ofList ["y"])
  let g := g.withNode (.leaf {} .singleton) none .empty
  { g with edges := g.edges.insert ⟨4, 1⟩ }

theorem built_relay : relay.Built := by
  refine Built.connect (s := 4) (t := 1) ?_ (connect_of_mem (by decide) (by decide))
  exact (((((Built.empty .empty).add _ _ _).add _ _ _).add _ _ _).add _ _ _).add _ _ _

theorem eliminate_chain_saturates_relay : ∃ pruned left,
    relay.eliminate.value = (pruned, .ok 1) ∧ pruned.chain.value = (left, .ok 2) ∧
      left.eliminate.value = (left, .ok 0) ∧ left.chain.value = (left, .ok 0) := by
  have he : ∃ pruned, relay.eliminate.value = (pruned, .ok 1) := ⟨_, rfl⟩
  have hc : ∃ left, relay.eliminate.value.1.chain.value = (left, .ok 2) := ⟨_, rfl⟩
  obtain ⟨pruned, he⟩ := he
  obtain ⟨left, hc⟩ := hc
  rw [he] at hc
  obtain ⟨hdead, hpair, _⟩ := eliminate_chain_saturates built_relay he hc
  exact ⟨pruned, left, he, hc, hdead, hpair⟩

end Planner.Flow.Graph
