import Planner.Proofs.Flow.Threaded

/-! # What deleting dead nodes leaves

`Graph.Eliminates` is the loop of the pass without a bound on its rounds: the first dead node is
deleted until there is none.  The pass runs this loop to its end on every graph
(`eliminate_eliminates`), for each round takes a node away.  `Graph.Spared` says what deletions leave
alone: the nodes that stay are those of before, in the same order, and the nodes that assign nothing
are among them.

Main statement: `eliminate_leaves_live`, what the pass leaves of a graph with any edges and any notes
at its nodes. -/

namespace Planner.Flow.Graph

variable {g h left : Graph} {n : Node} {i count more : ℕ}

/-! ### The loop -/

/-- Deleting the first dead node until there is none: how many nodes go, and the graph that is left. -/
inductive Eliminates : Graph → ℕ → Graph → Prop
  | stop {g : Graph} : g.dead? g.liveness.value = none → Eliminates g 0 g
  | next {g h left : Graph} {i count : ℕ} : g.dead? g.liveness.value = some i →
      g.delete i = .ok h → Eliminates h count left → Eliminates g (count + 1) left

theorem exists_of_dead? {l : Liveness} (h : g.dead? l = some i) :
    ∃ n ∈ g.nodes, n.id = i ∧ n.target ≠ none := by
  obtain ⟨n, hfind, hid⟩ := Option.map_eq_some_iff.mp h
  obtain ⟨name, htarget, _⟩ := isDead_iff.mp (List.find?_some hfind)
  refine ⟨n, List.mem_of_find?_eq_some hfind, hid, ?_⟩
  rw [htarget]
  exact Option.some_ne_none name

/-- With more rounds than nodes, the loop runs to its end. -/
theorem eliminateWithin_eliminates (g : Graph) {fuel : ℕ} (removed : ℕ)
    (hfuel : g.nodes.length < fuel) :
    ∃ left count, (g.eliminateWithin fuel removed).value = (left, .ok (removed + count)) ∧
      Eliminates g count left := by
  induction fuel generalizing g removed with
  | zero => omega
  | succ fuel ih =>
      simp only [Graph.eliminateWithin, Logged.value_bind]
      cases hd : g.dead? g.liveness.value with
      | none => exact ⟨g, 0, rfl, .stop hd⟩
      | some i =>
          obtain ⟨n, hn, rfl, _⟩ := exists_of_dead? hd
          have hdelete := delete_of_mem (g := g) (List.mem_map_of_mem hn)
          have hlt := length_nodes_without hn
          obtain ⟨left, count, heq, hrun⟩ := ih (g.without n.id) (removed + 1) (by omega)
          refine ⟨left, count + 1, ?_, .next hd hdelete hrun⟩
          simp only [Logged.value_bind, hdelete, heq]
          congr 2
          omega

theorem eliminate_eliminates (g : Graph) :
    ∃ left removed, g.eliminate.value = (left, .ok removed) ∧ Eliminates g removed left := by
  obtain ⟨left, count, heq, hrun⟩ := eliminateWithin_eliminates g 0 (Nat.lt_succ_self _)
  rw [Nat.zero_add] at heq
  exact ⟨left, count, by rw [eliminate_value, heq], hrun⟩

theorem Eliminates.dead?_eq_none (hrun : Eliminates g count left) :
    left.dead? left.liveness.value = none := by
  induction hrun with
  | stop hd => exact hd
  | next _ _ _ ih => exact ih

/-! ### What stays -/

/-- `count` nodes are gone; the others are as they were, and none of those that went had assigned
nothing. -/
structure Spared (g : Graph) (count : ℕ) (h : Graph) : Prop where
  sublist : h.nodes.Sublist g.nodes
  length_add : h.nodes.length + count = g.nodes.length
  stays : ∀ n ∈ g.nodes, n.target = none → n ∈ h.nodes
  cells_eq : h.cells = g.cells

theorem Spared.refl (g : Graph) : g.Spared 0 g :=
  ⟨List.Sublist.refl _, rfl, fun _ hn _ => hn, rfl⟩

theorem Spared.trans (h₁ : g.Spared count h) (h₂ : h.Spared more left) :
    g.Spared (more + count) left where
  sublist := h₂.sublist.trans h₁.sublist
  length_add := by
    have hfirst := h₁.length_add
    have hthen := h₂.length_add
    omega
  stays := fun n hn htarget => h₂.stays n (h₁.stays n hn htarget) htarget
  cells_eq := h₂.cells_eq.trans h₁.cells_eq

theorem Numbered.spared_without (hg : g.Numbered) (hn : n ∈ g.nodes) (htarget : n.target ≠ none) :
    g.Spared 1 (g.without n.id) := by
  obtain ⟨pre, post, hnodes⟩ := List.append_of_mem hn
  have hleft := hg.nodes_without hnodes
  refine ⟨List.filter_sublist, ?_, fun m hm hnone => ?_, rfl⟩
  · rw [hleft, hnodes]
    simp only [List.length_append, List.length_cons]
    omega
  · refine mem_nodes_without.mpr ⟨hm, fun hid => htarget ?_⟩
    rw [← hg.eq_of_id hm hn hid]
    exact hnone

theorem Eliminates.spared (hrun : Eliminates g count left) (hg : g.Numbered) :
    g.Spared count left := by
  induction hrun with
  | stop _ => exact Spared.refl _
  | next hd hdelete _ ih =>
      obtain ⟨n, hn, rfl, htarget⟩ := exists_of_dead? hd
      obtain ⟨_, rfl⟩ := delete_eq_ok hdelete
      exact (hg.spared_without hn htarget).trans (ih (hg.without n.id))

theorem Spared.node?_eq (h' : g.Spared count h) (hg : g.Numbered) (hn : h.node? i = some n) :
    g.node? i = some n := by
  obtain ⟨hmem, rfl⟩ := mem_of_node? hn
  exact hg.node?_of_mem (h'.sublist.subset hmem)

/-! ### The result -/

/-- **Deleting dead nodes leaves live ones.**  On every graph that can be built the pass comes to an
end and does not fail; it gives the number of nodes that are gone.  What each remaining node assigns is
live behind it, every node that assigns nothing is still there, no remaining node has changed, and a
second run deletes nothing. -/
theorem eliminate_leaves_live (hg : g.Built) :
    ∃ left removed, g.eliminate.value = (left, .ok removed) ∧ Eliminates g removed left ∧
      left.nodes.length + removed = g.nodes.length ∧
      (∀ n ∈ left.nodes, ∀ name, n.target = some name → name ∈ left.liveness.value.behind n.id) ∧
      (∀ n ∈ g.nodes, n.target = none → n ∈ left.nodes) ∧
      (∀ i n, left.node? i = some n → g.node? i = some n) ∧ left.cells = g.cells ∧
      left.eliminate.value = (left, .ok 0) := by
  obtain ⟨left, removed, heq, hrun⟩ := g.eliminate_eliminates
  have hspared := hrun.spared hg.numbered
  have hlive := dead?_eq_none_iff.mp hrun.dead?_eq_none
  refine ⟨left, removed, heq, hrun, hspared.length_add, fun n hn name htarget => ?_, hspared.stays,
    fun i n => hspared.node?_eq hg.numbered, hspared.cells_eq,
    eliminate_of_not_deadStep (not_deadStep_iff.mpr hlive)⟩
  by_contra hname
  have hdead := isDead_iff.mpr ⟨name, htarget, hname⟩
  rw [hlive n hn] at hdead
  cases hdead

/-- A store, then a name that is assigned and read in the last node only, which nothing reads. -/
def unreadLine : Graph :=
  ((Graph.empty.withNode (.unary {} (.store ⟨"public", "adhoc", "r"⟩) (.leaf {} .singleton)) none
      .empty).withNode (.unary {} (.storeTemp "x") (.leaf {} .singleton)) (some "x") .empty).withNode
    (.unary {} (.storeTemp "y") (.leaf {} (.scanTemp "x" .empty))) (some "y") (.ofList ["x"])

/-- The node in the middle leads to itself as well, and the last one to the first. -/
def unreadTail : Graph :=
  { unreadLine with edges := (unreadLine.edges.insert ⟨1, 1⟩).insert ⟨2, 0⟩ }

theorem built_unreadTail : unreadTail.Built := by
  have hline : unreadLine.Built := (((Built.empty .empty).add _ _ _).add _ _ _).add _ _ _
  have hself := hline.connect (connect_of_mem (s := 1) (t := 1) (by decide) (by decide))
  exact hself.connect (connect_of_mem (s := 2) (t := 0) (by decide) (by decide))

theorem eliminate_leaves_live_unreadTail : unreadTail.Built ∧ ∃ left,
    unreadTail.eliminate.value = (left, .ok 2) ∧ left.ids = [0] ∧
      left.nodes.length + 2 = unreadTail.nodes.length ∧ left.eliminate.value = (left, .ok 0) := by
  obtain ⟨left, removed, heq, _, hlength, _, _, _, _, hagain⟩ :=
    eliminate_leaves_live built_unreadTail
  have hcount : unreadTail.eliminate.value.2 = .ok 2 := by decide +kernel
  have hids : unreadTail.eliminate.value.1.ids = [0] := by decide +kernel
  rw [heq] at hcount hids
  obtain rfl := Except.ok.inj hcount
  exact ⟨built_unreadTail, left, heq, hids, hlength, hagain⟩

end Planner.Flow.Graph
