import Mathlib.Order.Monotone.Basic
import Planner.Proofs.Flow.Passes

/-! # Other numbers

The numbers of nodes play no part in what the passes do, only their order does.  A graph is a
renumbering of another one (`Graph.Renumbers`) if both show the same code but for the numbers of its
nodes, which are increased by a function that keeps their order.  The edges are then renumbered too
(`Renumbers.mem_edges`), and the same is live around corresponding nodes (`Renumbers.before_eq`,
`Renumbers.behind_eq`), for what is live in one of the graphs bounds what is live in the other.

So each pass finds corresponding nodes in both graphs and leaves a renumbering.  Main statements:
`Renumbers.eliminate` and `Renumbers.chain`, with `Renumbers.plans_eq`, the plans are the same. -/

namespace Planner.Flow

variable {ρ : ℕ → ℕ}

/-- The node with another number. -/
def Node.renumber (ρ : ℕ → ℕ) (n : Node) : Node := { n with id := ρ n.id }

@[simp] theorem Node.id_renumber (ρ : ℕ → ℕ) (n : Node) : (n.renumber ρ).id = ρ n.id := rfl

/-- The edge with other numbers. -/
def Edge.renumber (ρ : ℕ → ℕ) (e : Edge) : Edge := ⟨ρ e.source, ρ e.target⟩

theorem Edge.renumber_injective (hρ : Function.Injective ρ) : Function.Injective (renumber ρ) := by
  rintro ⟨i, j⟩ ⟨i', j'⟩ heq
  obtain ⟨hi, hj⟩ := Edge.mk.inj heq
  exact congrArg₂ Edge.mk (hρ hi) (hρ hj)

theorem findSome?_congr {α β : Type} {l : List α} {f f' : α → Option β} (h : ∀ a ∈ l, f a = f' a) :
    l.findSome? f = l.findSome? f' := by
  induction l with
  | nil => rfl
  | cons a l ih =>
      rw [List.findSome?_cons, List.findSome?_cons, h a List.mem_cons_self,
        ih (fun b hb => h b (List.mem_cons_of_mem a hb))]

theorem spine_map (ρ : ℕ → ℕ) (l : List ℕ) : spine (l.map ρ) = (spine l).map (Edge.renumber ρ) := by
  induction l using spine.induct with
  | case1 => rfl
  | case2 i => rfl
  | case3 i j rest ih =>
      rw [List.map_cons, List.map_cons, spine, ← List.map_cons, ih, spine, List.map_cons]
      rfl

/-! ### Code -/

namespace Code

variable {c : Code} {f f' : Node → Option Node}

/-- The code with other numbers. -/
def renumber (ρ : ℕ → ℕ) (c : Code) : Code := c.rewrite (fun n => some (n.renumber ρ))

theorem nodes_renumber (ρ : ℕ → ℕ) (c : Code) :
    (c.renumber ρ).nodes = c.nodes.map (Node.renumber ρ) := by
  rw [renumber, nodes_rewrite (fun _ _ => rfl), ← List.filterMap_eq_map]
  rfl

theorem renumber_append (ρ : ℕ → ℕ) (c d : Code) :
    (c.append d).renumber ρ = (c.renumber ρ).append (d.renumber ρ) :=
  rewrite_append _ c d

theorem tests_renumber (ρ : ℕ → ℕ) (c : Code) :
    (c.renumber ρ).tests = c.tests.map (Node.renumber ρ) :=
  tests_rewrite _ c

theorem ids_renumber (ρ : ℕ → ℕ) (c : Code) : (c.renumber ρ).ids = c.ids.map ρ := by
  rw [ids, ids, nodes_renumber, List.map_map, List.map_map]
  rfl

theorem header_renumber (ρ : ℕ → ℕ) (body : Code) (test : Node) :
    header (body.renumber ρ) (test.renumber ρ) = ρ (header body test) := by
  rw [header, header, nodes_renumber, List.head?_map]
  cases body.nodes.head? <;> rfl

theorem backs_renumber (ρ : ℕ → ℕ) (c : Code) :
    (c.renumber ρ).backs = c.backs.map (Edge.renumber ρ) := by
  induction c with
  | done => rfl
  | step n rest ih => exact ih
  | loop body test rest ihb ihr =>
      have hloop : (loop body test rest).renumber ρ =
        loop (body.renumber ρ) (test.renumber ρ) (rest.renumber ρ) := rfl
      rw [hloop, backs, backs, header_renumber, ihb, ihr, List.map_append, List.map_cons]
      rfl

theorem plans_renumber (ρ : ℕ → ℕ) (c : Code) : (c.renumber ρ).plans = c.plans := by
  induction c with
  | done => rfl
  | step n rest ih => exact congrArg (n.op :: ·) ih
  | loop body test rest ihb ihr => exact congrArg₂ (fun ps qs => Block.loop ps test.op :: qs) ihb ihr

theorem opens_renumber (hρ : Function.Injective ρ) (c : Code) (i : ℕ) :
    (c.renumber ρ).opens (ρ i) = c.opens i := by
  rw [opens, opens, backs_renumber, List.countP_map]
  congr 1
  funext e
  simp [Edge.renumber, hρ.eq_iff]

theorem closes_renumber (hρ : Function.Injective ρ) (c : Code) (i : ℕ) :
    (c.renumber ρ).closes (ρ i) = c.closes i := by
  rw [closes, closes, backs_renumber, List.countP_map]
  congr 1
  funext e
  simp [Edge.renumber, hρ.eq_iff]

/-- Renumbering goes along with a rewriting that does the same to corresponding nodes. -/
theorem rewrite_renumber (hf : ∀ t ∈ c.tests, (f t).isSome)
    (hff : ∀ n ∈ c.nodes, f' (n.renumber ρ) = (f n).map (Node.renumber ρ)) :
    (c.renumber ρ).rewrite f' = (c.rewrite f).renumber ρ := by
  have hf' : ∀ t ∈ c.tests, ∀ m, some (t.renumber ρ) = some m → (f' m).isSome := by
    rintro t ht m hm
    rw [← Option.some.inj hm, hff t (mem_nodes_of_mem_tests ht), Option.isSome_map]
    exact hf t ht
  rw [renumber, rewrite_rewrite (fun _ _ => rfl) hf', renumber,
    rewrite_rewrite hf (fun _ _ _ _ => rfl)]
  refine rewrite_congr (fun n hn => ?_)
  rw [Option.bind_some, hff n hn, Option.map_eq_bind]
  rfl

theorem drop_renumber (hρ : Function.Injective ρ) (i : ℕ) (n : Node) :
    drop (ρ i) (n.renumber ρ) = (drop i n).map (Node.renumber ρ) := by
  simp only [drop, Node.id_renumber, hρ.eq_iff]
  split_ifs <;> rfl

theorem swap_renumber (hρ : Function.Injective ρ) (m n : Node) :
    swap (m.renumber ρ) (n.renumber ρ) = (swap m n).renumber ρ := by
  simp only [swap, Node.id_renumber, hρ.eq_iff]
  split_ifs <;> rfl

end Code

/-! ### Graphs -/

namespace Graph

variable {g h : Graph} {c : Code} {a b n : Node} {name : String} {i j : ℕ}

/-- The second graph has the nodes and edges of the first one, with larger numbers in the same
order. -/
structure Renumbers (ρ : ℕ → ℕ) (c : Code) (g h : Graph) : Prop where
  mono : StrictMono ρ
  follows : g.Follows c
  image : h.Shows ((c.view g).renumber ρ)
  cells_eq : h.cells = g.cells

namespace Renumbers

variable (hr : Renumbers ρ c g h)

include hr

theorem nodes_eq : h.nodes = g.nodes.map (Node.renumber ρ) := by
  rw [hr.image.nodes_eq, Code.nodes_renumber, hr.follows.shows.nodes_eq]

theorem length_nodes : h.nodes.length = g.nodes.length := by rw [hr.nodes_eq, List.length_map]

theorem renumber_mem (hn : n ∈ g.nodes) : n.renumber ρ ∈ h.nodes :=
  hr.nodes_eq ▸ List.mem_map_of_mem hn

theorem mem_edges {e : Edge} : e ∈ h.edges ↔ ∃ d ∈ g.edges, d.renumber ρ = e := by
  rw [hr.image.mem_edges, Code.ids_renumber, Code.backs_renumber, spine_map, List.mem_map, List.mem_map]
  simp only [hr.follows.shows.mem_edges]
  constructor
  · rintro (⟨d, hd, rfl⟩ | ⟨d, hd, rfl⟩)
    · exact ⟨d, Or.inl hd, rfl⟩
    · exact ⟨d, Or.inr hd, rfl⟩
  · rintro ⟨d, hd | hd, rfl⟩
    · exact Or.inl ⟨d, hd, rfl⟩
    · exact Or.inr ⟨d, hd, rfl⟩

theorem edge_iff : ⟨ρ i, ρ j⟩ ∈ h.edges ↔ ⟨i, j⟩ ∈ g.edges := by
  rw [hr.mem_edges]
  constructor
  · rintro ⟨d, hd, heq⟩
    have hsame : d = ⟨i, j⟩ := Edge.renumber_injective hr.mono.injective heq
    exact hsame ▸ hd
  · exact fun hd => ⟨_, hd, rfl⟩

/-! ### What is live -/

/-- What is live in the graph bounds what is live in the renumbered one. -/
theorem bounds_image : Liveness.Bounds h
    (fun id => { x | ∃ i, ρ i = id ∧ x ∈ g.liveness.value.before i })
    (fun id => { x | ∃ i, ρ i = id ∧ x ∈ g.liveness.value.behind i }) := by
  have hg := hr.follows.shows.numbered
  have hinj := hr.mono.injective
  refine ⟨fun n hn x hx => ?_, fun n hn x hx hne => ?_, fun n hn s hs x hx => ?_⟩
  · rw [hr.nodes_eq] at hn
    obtain ⟨m, hm, rfl⟩ := List.mem_map.mp hn
    exact ⟨m.id, rfl, mem_before_of_uses hg hm hx⟩
  · rw [hr.nodes_eq] at hn
    obtain ⟨m, hm, rfl⟩ := List.mem_map.mp hn
    obtain ⟨i, hi, hx⟩ := hx
    obtain rfl : i = m.id := hinj hi
    exact ⟨m.id, rfl, mem_before_of_behind hg hm hx hne⟩
  · rw [hr.nodes_eq] at hn
    obtain ⟨m, hm, rfl⟩ := List.mem_map.mp hn
    obtain ⟨i, rfl, hx⟩ := hx
    exact ⟨m.id, rfl, mem_behind_of_edge hg hm (hr.edge_iff.mp (mem_successors.mp hs)) hx⟩

/-- What is live in the renumbered graph bounds what is live in the graph. -/
theorem bounds_preimage : Liveness.Bounds g
    (fun id => { x | x ∈ h.liveness.value.before (ρ id) })
    (fun id => { x | x ∈ h.liveness.value.behind (ρ id) }) := by
  have hh := hr.image.numbered
  refine ⟨fun n hn x hx => ?_, fun n hn x hx hne => ?_, fun n hn s hs x hx => ?_⟩
  · exact mem_before_of_uses hh (hr.renumber_mem hn) hx
  · exact mem_before_of_behind hh (hr.renumber_mem hn) hx hne
  · exact mem_behind_of_edge hh (hr.renumber_mem hn) (hr.edge_iff.mpr (mem_successors.mp hs)) hx

theorem before_eq (i : ℕ) : h.liveness.value.before (ρ i) = g.liveness.value.before i := by
  refine SortedSet.ext_mem (fun x => ⟨fun hx => ?_, fun hx => ?_⟩)
  · obtain ⟨j, hj, hx⟩ :=
      (Liveness.within_liveness hr.image.numbered hr.bounds_image).before_mem _ x hx
    exact hr.mono.injective hj ▸ hx
  · exact (Liveness.within_liveness hr.follows.shows.numbered hr.bounds_preimage).before_mem i x hx

theorem behind_eq (i : ℕ) : h.liveness.value.behind (ρ i) = g.liveness.value.behind i := by
  refine SortedSet.ext_mem (fun x => ⟨fun hx => ?_, fun hx => ?_⟩)
  · obtain ⟨j, hj, hx⟩ :=
      (Liveness.within_liveness hr.image.numbered hr.bounds_image).behind_mem _ x hx
    exact hr.mono.injective hj ▸ hx
  · exact (Liveness.within_liveness hr.follows.shows.numbered hr.bounds_preimage).behind_mem i x hx

/-! ### Deleting dead nodes -/

theorem isDead_eq (n : Node) :
    h.liveness.value.isDead (n.renumber ρ) = g.liveness.value.isDead n := by
  rw [Liveness.isDead, Liveness.isDead, Node.renumber, hr.behind_eq]

theorem dead?_eq : h.dead? h.liveness.value = (g.dead? g.liveness.value).map ρ := by
  have hdead : h.liveness.value.isDead ∘ Node.renumber ρ = g.liveness.value.isDead :=
    funext hr.isDead_eq
  rw [dead?, dead?, hr.nodes_eq, List.find?_map, hdead, Option.map_map, Option.map_map]
  rfl

/-- A node that is no test corresponds to one that is no test. -/
theorem not_mem_tests (hi : i ∉ (c.view g).tests.map Node.id) :
    ρ i ∉ ((c.view g).renumber ρ).tests.map Node.id := by
  rw [Code.tests_renumber, List.map_map]
  intro hmem
  obtain ⟨t, ht, hid⟩ := List.mem_map.mp hmem
  exact hi (hr.mono.injective hid ▸ List.mem_map_of_mem ht)

theorem id_mem (hn : n ∈ g.nodes) : ρ n.id ∈ ((c.view g).renumber ρ).ids := by
  rw [Code.ids_renumber, ← hr.follows.shows.ids_eq]
  exact List.mem_map_of_mem (List.mem_map_of_mem hn)

/-- Without corresponding dead nodes the graphs still correspond. -/
theorem without (hn : n ∈ g.nodes) (hdead : g.liveness.value.isDead n = true) :
    Renumbers ρ c (g.without n.id) (h.without (ρ n.id)) := by
  obtain ⟨name, htarget, _⟩ := isDead_iff.mp hdead
  obtain ⟨hfollows, hview⟩ := hr.follows.deadStep hn hdead
  have hmem : n ∈ (c.view g).nodes := hr.follows.shows.nodes_eq ▸ hn
  have htests := hr.follows.proper.not_mem_tests hr.follows.shows.nodup hmem htarget
  refine ⟨hr.mono, hfollows, ?_, hr.cells_eq⟩
  -- Leaving out the node and renumbering can be done in either order.
  have hdrop := fun m (_ : m ∈ (c.view g).nodes) => Code.drop_renumber hr.mono.injective n.id m
  rw [hview, ← Code.rewrite_renumber (Code.isSome_drop htests) hdrop]
  exact hr.image.without (hr.id_mem hn) (hr.not_mem_tests htests)

omit hr in
/-- The pass finds corresponding nodes, one after the other. -/
theorem eliminateWithin (hr : Renumbers ρ c g h) (fuel removed : ℕ) :
    Renumbers ρ c (g.eliminateWithin fuel removed).value.1 (h.eliminateWithin fuel removed).value.1 := by
  induction fuel generalizing g h removed with
  | zero => exact hr
  | succ fuel ih =>
      simp only [Graph.eliminateWithin, Logged.value_bind]
      rw [hr.dead?_eq]
      cases hd : g.dead? g.liveness.value with
      | none => exact hr
      | some id =>
          obtain ⟨n, hfind, rfl⟩ := Option.map_eq_some_iff.mp hd
          have hn := List.mem_of_find?_eq_some hfind
          have hid : ρ n.id ∈ h.ids := List.mem_map_of_mem (hr.renumber_mem hn)
          simp only [Option.map_some, Logged.value_bind, delete_of_mem (List.mem_map_of_mem hn),
            delete_of_mem hid]
          exact ih (hr.without hn (List.find?_some hfind)) (removed + 1)

/-- **Deleting dead nodes leaves a renumbering.** -/
theorem eliminate : Renumbers ρ c g.eliminate.value.1 h.eliminate.value.1 := by
  rw [eliminate_value, eliminate_value, hr.length_nodes]
  exact hr.eliminateWithin _ _

/-! ### Joining neighbours -/

theorem isHeader_eq (hn : n ∈ g.nodes) : h.isHeader (ρ n.id) = g.isHeader n.id := by
  have hmem : n.id ∈ (c.view g).ids := hr.follows.shows.ids_eq ▸ List.mem_map_of_mem hn
  rw [isHeader, isHeader, hr.image.loopsOpened (hr.id_mem hn), hr.follows.shows.loopsOpened hmem,
    Code.opens_renumber hr.mono.injective]

theorem isTerminator_eq (hn : n ∈ g.nodes) : h.isTerminator (ρ n.id) = g.isTerminator n.id := by
  have hmem : n.id ∈ (c.view g).ids := hr.follows.shows.ids_eq ▸ List.mem_map_of_mem hn
  rw [isTerminator, isTerminator, hr.image.loopsClosed (hr.id_mem hn),
    hr.follows.shows.loopsClosed hmem, Code.closes_renumber hr.mono.injective]

theorem link?_eq (ha : a ∈ g.nodes) (hb : b ∈ g.nodes) :
    h.link? h.liveness.value (a.renumber ρ) (b.renumber ρ) =
      (g.link? g.liveness.value a b).map (fun link => ⟨ρ link.writer, ρ link.reader, link.name⟩) := by
  have hheader : h.isHeader (b.renumber ρ).id = g.isHeader b.id := hr.isHeader_eq hb
  have hterminator : h.isTerminator (a.renumber ρ).id = g.isTerminator a.id := hr.isTerminator_eq ha
  have hbehind : h.liveness.value.behind (b.renumber ρ).id = g.liveness.value.behind b.id :=
    hr.behind_eq b.id
  have htarget : (a.renumber ρ).target = a.target := rfl
  have huses : (b.renumber ρ).uses = b.uses := rfl
  rw [link?, link?, hheader, hterminator, hbehind, htarget, huses]
  split_ifs with hedge
  · rfl
  · cases a.target with
    | none => rfl
    | some name =>
        simp only
        split_ifs <;> rfl

theorem firstLink?_eq : h.firstLink? h.liveness.value =
    (g.firstLink? g.liveness.value).map (fun link => ⟨ρ link.writer, ρ link.reader, link.name⟩) := by
  rw [firstLink?, firstLink?, hr.nodes_eq, ← List.map_drop, List.zip_map, List.findSome?_map,
    List.map_findSome?]
  refine findSome?_congr (fun pair hpair => ?_)
  obtain ⟨ha, hb⟩ := List.of_mem_zip hpair
  exact hr.link?_eq ha (List.mem_of_mem_drop hb)

theorem absorbed_eq (a b : Node) (name : String) :
    h.absorbed (a.renumber ρ) (b.renumber ρ) name = (g.absorbed a b name).renumber ρ := by
  rw [absorbed, absorbed, hr.cells_eq]
  rfl

theorem fuseNode_eq (a b : Node) (name : String) (n : Node) :
    h.fuseNode (a.renumber ρ) (b.renumber ρ) name (n.renumber ρ) =
      (g.fuseNode a b name n).map (Node.renumber ρ) := by
  rw [fuseNode, fuseNode, hr.absorbed_eq, Code.swap_renumber hr.mono.injective]
  exact Code.drop_renumber hr.mono.injective a.id _

/-- With corresponding pairs joined the graphs still correspond. -/
theorem fused (hj : g.Joinable a b name) :
    Renumbers ρ c (g.fused a b name) (h.fused (a.renumber ρ) (b.renumber ρ) name) := by
  obtain ⟨hfollows, hview⟩ := hr.follows.fuseStep hj
  have hmem : a ∈ (c.view g).nodes := hr.follows.shows.nodes_eq ▸ hj.writer_mem
  have htests := hr.follows.proper.not_mem_tests hr.follows.shows.nodup hmem hj.target
  refine ⟨hr.mono, hfollows, ?_, ?_⟩
  · have hfuse := fun m (_ : m ∈ (c.view g).nodes) => hr.fuseNode_eq a b name m
    rw [hview, ← Code.rewrite_renumber (isSome_fuseNode b name htests) hfuse]
    exact hr.image.fused _ name (hr.id_mem hj.writer_mem) (hr.not_mem_tests htests)
  · show (b.op.substitute name (a.stored name) h.cells).2.2 = _
    rw [hr.cells_eq]
    rfl

theorem inline_eq (hj : g.Joinable a b name) : (h.inline (ρ a.id) (ρ b.id) name).value =
    .ok (h.fused (a.renumber ρ) (b.renumber ρ) name) := by
  have hwriter := hr.image.numbered.node?_of_mem (hr.renumber_mem hj.writer_mem)
  have hreader := hr.image.numbered.node?_of_mem (hr.renumber_mem hj.reader_mem)
  have hinline := inline_value name hwriter hreader
  have hreads : (b.renumber ρ).op.reads name ≠ 0 := (hr.follows.inline_joinable hj).1
  rw [if_neg hreads] at hinline
  exact hinline

omit hr in
/-- The pass finds corresponding pairs, one after the other. -/
theorem chainWithin (hr : Renumbers ρ c g h) (fuel count : ℕ) :
    Renumbers ρ c (g.chainWithin fuel count).value.1 (h.chainWithin fuel count).value.1 := by
  induction fuel generalizing g h count with
  | zero => exact hr
  | succ fuel ih =>
      simp only [Graph.chainWithin, Logged.value_bind]
      rw [hr.firstLink?_eq]
      cases hl : g.firstLink? g.liveness.value with
      | none => exact hr
      | some link =>
          obtain ⟨⟨a, b⟩, hab, hlink⟩ := List.exists_of_findSome?_eq_some hl
          obtain ⟨name, rfl, hj⟩ := joinable_of_link? hab hlink
          simp only [Option.map_some, Logged.value_bind, (hr.follows.inline_joinable hj).2,
            hr.inline_eq hj]
          exact ih (hr.fused hj) (count + 1)

/-- **Joining neighbours leaves a renumbering.** -/
theorem chain : Renumbers ρ c g.chain.value.1 h.chain.value.1 := by
  rw [chain_value, chain_value, hr.length_nodes]
  exact hr.chainWithin _ _

/-- The numbers are no part of the plan. -/
theorem plans_eq {d : Code} (hd : h.Shows d) : d.plans = (c.view g).plans := by
  have heq := hd.toPlan.symm.trans hr.image.toPlan
  rw [Code.plans_renumber] at heq
  simpa using heq

end Renumbers

end Graph

end Planner.Flow
