import Mathlib.Data.List.Chain
import Planner.Proofs.Program.Binding

/-! # Schemes of reads and the assignments that reach them

`Graph.AssignPath` is a path from the first node of a graph to a node, with the last assignment of a
relation on it.  `Graph.Latest` is the last assignment before a node in the text.  An edge leads to
the next node or back (`Shows.target_le`), so a path from an assignment to a node behind it in the
text passes every node in between (`Shows.mem_way`), and an assignment that reaches a node behind it
is the latest one (`AssignPath.eq_latest`).

Main statement: `reads_latest`, a read that is written without a scheme has the scheme of the latest
assignment, so that of every assignment before it in the text that reaches it, and a read that is
written with a scheme keeps it.  Assignments that reach a read only around a loop, and reads that are
written with a scheme, may have other schemes (`reads_other_scheme`). -/

namespace Planner

open Planner.Flow

namespace Flow

namespace Graph

variable {g : Graph} {c : Code} {name : String} {k l m n : Node} {before way : List Node}

/-! ### Assignments that reach a node -/

/-- A path from the first node to a node; the last assignment of a relation on it is at `m`. -/
structure AssignPath (g : Graph) (name : String) (before : List Node) (m : Node) (way : List Node)
    (n : Node) : Prop where
  starts : (before ++ m :: (way ++ [n])).head? = g.nodes.head?
  nodes : ∀ k ∈ before ++ m :: (way ++ [n]), k ∈ g.nodes
  edges : (before ++ m :: (way ++ [n])).IsChain (fun a b => ⟨a.id, b.id⟩ ∈ g.edges)
  assigns : m.target = some name
  keeps : ∀ k ∈ way, k.target ≠ some name

/-- The last assignment of a relation before a node in the text. -/
structure Latest (g : Graph) (name : String) (m n : Node) : Prop where
  mem : m ∈ g.nodes
  assigns : m.target = some name
  earlier : m.id < n.id
  last : ∀ k ∈ g.nodes, m.id < k.id → k.id < n.id → k.target ≠ some name

theorem Shows.target_le (hg : g.Shows c) {i j : ℕ} (he : ⟨i, j⟩ ∈ g.edges) (hk : k ∈ g.nodes)
    (hlt : i < k.id) : j ≤ k.id := by
  rcases (hg.mem_edges _).mp he with hspine | hback
  · have hmem : k.id ∈ c.ids := hg.ids_eq ▸ List.mem_map_of_mem hk
    exact target_le_of_mem_spine hg.increasing hspine hmem hlt
  · have hle : j ≤ i := Code.target_le_source hg.increasing hback
    omega

/-- A path to a node behind its first one in the text passes every node in between.  The induction
follows the path for as long as it is before the node to be passed. -/
theorem Shows.mem_way (hg : g.Shows c) (hk : k ∈ g.nodes)
    (hpath : (m :: (way ++ [n])).IsChain (fun a b => ⟨a.id, b.id⟩ ∈ g.edges))
    (hmk : m.id < k.id) (hkn : k.id < n.id) : ∃ w ∈ way, w.id = k.id := by
  induction way generalizing m with
  | nil =>
      have hedge := (List.isChain_cons_cons.mp hpath).1
      have := hg.target_le hedge hk hmk
      omega
  | cons w way ih =>
      obtain ⟨hedge, hrest⟩ := List.isChain_cons_cons.mp hpath
      rcases Nat.lt_or_eq_of_le (hg.target_le hedge hk hmk) with hlt | heq
      · obtain ⟨w', hw', hid⟩ := ih hrest hlt
        exact ⟨w', List.mem_cons_of_mem w hw', hid⟩
      · exact ⟨w, List.mem_cons_self, heq⟩

theorem AssignPath.mem (h : g.AssignPath name before m way n) : m ∈ g.nodes :=
  h.nodes m (List.mem_append_right _ List.mem_cons_self)

theorem AssignPath.eq_latest (hg : g.Shows c) (h : g.AssignPath name before m way n)
    (hmn : m.id < n.id) (hl : g.Latest name l n) : m = l := by
  rcases Nat.lt_trichotomy m.id l.id with hlt | heq | hlt
  · obtain ⟨w, hw, hid⟩ := hg.mem_way hl.mem h.edges.right_of_append hlt hl.earlier
    have hmem : w ∈ g.nodes := h.nodes w (by simp [hw])
    obtain rfl := hg.numbered.eq_of_id hmem hl.mem hid
    exact absurd hl.assigns (h.keeps w hw)
  · exact hg.numbered.eq_of_id h.mem hl.mem heq
  · exact absurd h.assigns (hl.last m h.mem hlt hmn)

end Graph

/-! ### Known schemes -/

variable {cells : Cells} {temps temps' : Temps} {plans : List Plan} {pre nodes : List Node} {n : Node}
  {scheme : Scheme}

/-- Every known scheme is that of the last assignment in a list of nodes. -/
def Knows (cells : Cells) (pre : List Node) (temps : Temps) : Prop :=
  ∀ name scheme, temps.lookup name = some scheme → ∃ front m back, pre = front ++ m :: back ∧
    m.target = some name ∧ (∀ k ∈ back, k.target ≠ some name) ∧ m.op.scheme cells = .ok scheme

theorem Knows.learn (h : Knows cells pre temps) (hn : n.op.scheme cells = .ok scheme) :
    Knows cells (pre ++ [n]) (n.learn scheme temps) := by
  intro name found hfound
  by_cases htarget : n.target = some name
  · rw [Node.lookup_learn_self htarget] at hfound
    obtain rfl := Option.some.inj hfound
    exact ⟨pre, n, [], rfl, htarget, by simp, hn⟩
  · rw [Node.lookup_learn_of_ne htarget] at hfound
    obtain ⟨front, m, back, rfl, hm, hback, hscheme⟩ := h name found hfound
    refine ⟨front, m, back ++ [n], by simp, hm, ?_, hscheme⟩
    simp only [List.mem_append, List.mem_singleton]
    rintro k (hk | rfl)
    · exact hback k hk
    · exact htarget

theorem Knows.latest {g : Graph} {post : List Node} {name : String} (hg : g.Numbered)
    (h : Knows cells pre temps) (hnodes : g.nodes = pre ++ n :: post)
    (hlookup : temps.lookup name = some scheme) :
    ∃ m, g.Latest name m n ∧ m.op.scheme cells = .ok scheme := by
  obtain ⟨front, m, back, rfl, hm, hback, hscheme⟩ := h name scheme hlookup
  have hincreasing : g.nodes.Pairwise (fun a b => a.id < b.id) := List.pairwise_map.mp hg.increasing
  rw [hnodes, List.append_assoc, List.cons_append, List.pairwise_append, List.pairwise_cons,
    List.pairwise_append, List.pairwise_cons] at hincreasing
  obtain ⟨_, ⟨hbehind, _, ⟨hpost, _⟩, _⟩, hfront⟩ := hincreasing
  refine ⟨m, ⟨by simp [hnodes], hm, hbehind n (by simp), fun k hk hmk hkn => ?_⟩, hscheme⟩
  rw [hnodes] at hk
  simp only [List.append_assoc, List.cons_append, List.mem_append, List.mem_cons] at hk
  rcases hk with hk | rfl | hk | rfl | hk
  · have := hfront k hk m List.mem_cons_self
    omega
  · omega
  · exact hback k hk
  · omega
  · have := hpost k hk
    omega

/-! ### Reads -/

/-- A read at a node, as it was written and as it is: a written scheme is kept, and a read without one
has the scheme of the latest assignment, so that of every assignment before it in the text that
reaches it. -/
structure Graph.ReadsLatest (g : Graph) (n : Node) (written read : String × Scheme) : Prop where
  name_eq : read.1 = written.1
  kept : written.2.isEmpty = false → read.2 = written.2
  latest : written.2.isEmpty = true → ∃ m, g.Latest read.1 m n ∧ m.op.scheme g.cells = .ok read.2
  reaching : written.2.isEmpty = true → ∀ before m way, g.AssignPath read.1 before m way n →
    m.id < n.id → m.op.scheme g.cells = .ok read.2

/-- Every read has the scheme of each assignment that reaches it. -/
def Graph.ReadsReaching (g : Graph) : Prop :=
  ∀ n ∈ g.nodes, ∀ read ∈ n.op.scans, ∀ before m way, g.AssignPath read.1 before m way n →
    m.op.scheme g.cells = .ok read.2

theorem Graph.readsLatest_of_boundBy {g : Graph} {c : Code} {post : List Node}
    {written read : String × Scheme} (hg : g.Shows c) (h : Knows g.cells pre temps)
    (hnodes : g.nodes = pre ++ n :: post) (hread : Plan.BoundBy temps written read) :
    g.ReadsLatest n written read := by
  have hlatest (hempty : written.2.isEmpty = true) :
      ∃ m, g.Latest read.1 m n ∧ m.op.scheme g.cells = .ok read.2 := by
    rw [hread.name_eq]
    exact h.latest hg.numbered hnodes (hread.found hempty)
  refine ⟨hread.name_eq, hread.kept, hlatest, fun hempty before m way hpath hlt => ?_⟩
  obtain ⟨l, hl, hscheme⟩ := hlatest hempty
  rw [hpath.eq_latest hg hlt hl]
  exact hscheme

theorem Binds.readsLatest {g : Graph} {c : Code} (hg : g.Shows c)
    (h : Binds g.cells temps plans nodes temps') (hnodes : g.nodes = pre ++ nodes)
    (hpre : Knows g.cells pre temps) :
    List.Forall₂ (fun written n => List.Forall₂ (g.ReadsLatest n) written.scans n.op.scans)
      plans nodes := by
  -- the induction goes along the nodes in the text; `pre` are the nodes that are passed
  induction h generalizing pre with
  | nil => exact List.Forall₂.nil
  | cons first _ ih =>
      refine List.Forall₂.cons (first.scans.imp fun written read hread => ?_) ?_
      · exact Graph.readsLatest_of_boundBy hg hpre hnodes hread
      · exact ih (by rw [hnodes, List.append_assoc]; rfl) (hpre.learn first.scheme_eq)

end Flow

namespace Program

/-- **Reads have the schemes of the latest assignments.** -/
theorem reads_latest {p : Program} {cells : Cells} {g : Graph} (h : (p.toGraph cells).value = .ok g) :
    List.Forall₂ (fun written n => List.Forall₂ (g.ReadsLatest n) written.scans n.op.scans)
      p.written g.nodes := by
  obtain ⟨hshows, hcells⟩ := toGraph_shows h
  obtain ⟨temps, hbinds⟩ := toGraph_binds h
  rw [← hcells] at hbinds
  refine hbinds.readsLatest hshows (List.nil_append _).symm ?_
  intro name scheme hlookup
  cases hlookup

/-- A loop that assigns a relation with another scheme behind a read of it. -/
def carried : Program :=
  let x : Plan := .leaf {} (.scanTemp "x" .empty)
  ⟨[.assign "x" (.leaf {} (.scan ⟨"public", "adhoc", "R"⟩ ⟨[.named "a" .int]⟩)),
    .doWhile [.assign "y" x,
      .assign "x" (.leaf {} (.scan ⟨"public", "adhoc", "S"⟩ ⟨[.named "b" .string]⟩))] x]⟩

/-- A read that is written with a scheme which is not that of the assignment. -/
def annotated : Program :=
  ⟨[.assign "x" (.leaf {} (.scan ⟨"public", "adhoc", "R"⟩ ⟨[.named "a" .int]⟩)),
    .store ⟨"public", "adhoc", "out"⟩ (.leaf {} (.scanTemp "x" ⟨[.named "b" .string]⟩))]⟩

theorem reads_latest_carried : ∃ g, (carried.toGraph .empty).value = .ok g ∧
    List.Forall₂ (fun written n => List.Forall₂ (g.ReadsLatest n) written.scans n.op.scans)
      carried.written g.nodes := by
  have hgraph : ∃ g, (carried.toGraph .empty).value = .ok g := ⟨_, rfl⟩
  obtain ⟨g, h⟩ := hgraph
  exact ⟨g, h, reads_latest h⟩

theorem not_readsReaching_carried {g : Graph} (h : (carried.toGraph .empty).value = .ok g) :
    ¬ g.ReadsReaching := by
  intro hreads
  obtain ⟨hshows, hcells⟩ := toGraph_shows h
  obtain ⟨n₀, n₁, n₂, n₃, hcode, hids, hread, htarget, htest, hscheme⟩ :
      ∃ n₀ n₁ n₂ n₃ : Node, (carried.code .empty).nodes = [n₀, n₁, n₂, n₃] ∧
        [n₀, n₁, n₂, n₃].map Node.id = [0, 1, 2, 3] ∧
        ("x", ⟨[.named "a" .int]⟩) ∈ n₁.op.scans ∧ n₂.target = some "x" ∧ n₃.target = none ∧
        n₂.op.scheme .empty = .ok ⟨[.named "b" .string]⟩ :=
    ⟨_, _, _, _, rfl, rfl, List.mem_cons_self, rfl, rfl, rfl⟩
  have hnodes := hshows.nodes_eq.trans hcode
  have hedges : ∀ e ∈ [(⟨0, 1⟩ : Edge), ⟨1, 2⟩, ⟨2, 3⟩, ⟨3, 1⟩], e ∈ g.edges := by
    intro e he
    rw [hshows.mem_edges, ids_code, show (carried.code .empty).backs = [⟨3, 1⟩] from rfl]
    revert e
    decide
  have hpath : g.AssignPath "x" [n₀, n₁] n₂ [n₃] n₁ := by
    simp only [List.map_cons, List.map_nil, List.cons.injEq, and_true] at hids
    obtain ⟨h₀, h₁, h₂, h₃⟩ := hids
    refine ⟨by rw [hnodes]; rfl, by simp [hnodes], ?_, htarget, by simp [htest]⟩
    simp only [List.cons_append, List.nil_append, List.isChain_cons_cons, h₀, h₁, h₂, h₃]
    simpa using hedges
  have hequal := hreads n₁ (by simp [hnodes]) _ hread _ _ _ hpath
  rw [hcells, hscheme] at hequal
  exact absurd (Except.ok.inj hequal) (by decide)

theorem not_readsReaching_annotated {g : Graph} (h : (annotated.toGraph .empty).value = .ok g) :
    ¬ g.ReadsReaching := by
  intro hreads
  obtain ⟨hshows, hcells⟩ := toGraph_shows h
  obtain ⟨n₀, n₁, hcode, hids, hread, htarget, hscheme⟩ :
      ∃ n₀ n₁ : Node, (annotated.code .empty).nodes = [n₀, n₁] ∧
        [n₀, n₁].map Node.id = [0, 1] ∧ ("x", ⟨[.named "b" .string]⟩) ∈ n₁.op.scans ∧
        n₀.target = some "x" ∧ n₀.op.scheme .empty = .ok ⟨[.named "a" .int]⟩ :=
    ⟨_, _, rfl, rfl, List.mem_cons_self, rfl, rfl⟩
  have hnodes := hshows.nodes_eq.trans hcode
  have hedge : ⟨0, 1⟩ ∈ g.edges := by
    rw [hshows.mem_edges, ids_code]
    exact Or.inl (by decide)
  have hpath : g.AssignPath "x" [] n₀ [] n₁ := by
    simp only [List.map_cons, List.map_nil, List.cons.injEq, and_true] at hids
    refine ⟨by rw [hnodes]; rfl, by simp [hnodes], ?_, htarget, by simp⟩
    simpa [hids] using hedge
  have hequal := hreads n₁ (by simp [hnodes]) _ hread _ _ _ hpath
  rw [hcells, hscheme] at hequal
  exact absurd (Except.ok.inj hequal) (by decide)

/-- A read may have another scheme than an assignment that reaches it around a loop, and than the only
assignment if it is written with a scheme. -/
theorem reads_other_scheme :
    (∃ g, (carried.toGraph .empty).value = .ok g ∧ ¬ g.ReadsReaching) ∧
      ∃ g, (annotated.toGraph .empty).value = .ok g ∧ ¬ g.ReadsReaching := by
  have hcarried : ∃ g, (carried.toGraph .empty).value = .ok g := ⟨_, rfl⟩
  have hannotated : ∃ g, (annotated.toGraph .empty).value = .ok g := ⟨_, rfl⟩
  obtain ⟨g, hg⟩ := hcarried
  obtain ⟨h, hh⟩ := hannotated
  exact ⟨⟨g, hg, not_readsReaching_carried hg⟩, ⟨h, hh, not_readsReaching_annotated hh⟩⟩

end Program

end Planner
