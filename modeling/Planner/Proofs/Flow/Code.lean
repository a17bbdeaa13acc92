import Mathlib.Data.List.Nodup
import Mathlib.Data.List.Perm.Basic
import Planner.Proofs.Flow.Built
import Planner.Flow.Structure

/-! # Nested code and its graph

`Code` is a list of nodes and loops; a loop has a body, which is code again and may be empty, and a
node behind the body that tests whether to go on.  A graph shows a piece of code (`Graph.Shows`) if
its nodes are those of the code in order and its edges are the steps from each node to the next
(`spine`) and, for each loop, one back from the test to the first node of the loop (`Code.backs`).

In such a graph every edge beyond the first to a node is the back edge of a loop that begins there,
and every edge beyond the first from a node is the back edge of the loop that it closes
(`Shows.loopsOpened`, `Shows.loopsClosed`).  Main statement: `Shows.toPlan`, the plan of the graph is
the sequence of the code's plans, with the loops nested as in the code. -/

namespace Planner.Flow

/-- Nodes and loops in order. -/
inductive Code
  | done
  | step (n : Node) (rest : Code)
  | loop (body : Code) (test : Node) (rest : Code)

/-- The edges from each number of a list to the next one. -/
def spine : List ℕ → List Edge
  | [] => []
  | [_] => []
  | i :: j :: rest => ⟨i, j⟩ :: spine (j :: rest)

namespace Code

/-- The nodes in order. -/
def nodes : Code → List Node
  | done => []
  | step n rest => n :: nodes rest
  | loop body test rest => nodes body ++ test :: nodes rest

/-- The numbers of the nodes in order. -/
def ids (c : Code) : List ℕ := c.nodes.map Node.id

/-- The nodes that close loops, in order. -/
def tests : Code → List Node
  | done => []
  | step _ rest => tests rest
  | loop body test rest => tests body ++ test :: tests rest

/-- The nodes that do not close a loop, in order. -/
def steps : Code → List Node
  | done => []
  | step n rest => n :: steps rest
  | loop body _ rest => steps body ++ steps rest

/-- The number of the node at which a loop begins: the first one of the body, or the test if the
body is empty. -/
def header (body : Code) (test : Node) : ℕ := (body.nodes.head?.getD test).id

/-- The edges back to where loops begin. -/
def backs : Code → List Edge
  | done => []
  | step _ rest => backs rest
  | loop body test rest => backs body ++ ⟨test.id, header body test⟩ :: backs rest

/-- The plans of the code, with a loop for each loop. -/
def plans : Code → List Plan
  | done => []
  | step n rest => n.op :: plans rest
  | loop body test rest => Block.loop (plans body) test.op :: plans rest

/-- One piece of code behind another. -/
def append : Code → Code → Code
  | done, d => d
  | step n rest, d => step n (append rest d)
  | loop body test rest, d => loop body test (append rest d)

variable {c body rest : Code} {n test : Node} {i : ℕ}

@[simp] theorem ids_done : ids done = [] := rfl

@[simp] theorem ids_step (n : Node) (rest : Code) : (step n rest).ids = n.id :: rest.ids := rfl

@[simp] theorem ids_loop (body : Code) (test : Node) (rest : Code) :
    (loop body test rest).ids = body.ids ++ test.id :: rest.ids := by simp [ids, nodes]

theorem mem_nodes_of_mem_tests (h : n ∈ c.tests) : n ∈ c.nodes := by
  induction c with
  | done => cases h
  | step m rest ih => exact List.mem_cons_of_mem m (ih h)
  | loop body test rest ihb ihr =>
      simp only [tests, nodes, List.mem_append, List.mem_cons] at h ⊢
      rcases h with h | h | h
      · exact Or.inl (ihb h)
      · exact Or.inr (Or.inl h)
      · exact Or.inr (Or.inr (ihr h))

theorem mem_nodes_iff : n ∈ c.nodes ↔ n ∈ c.steps ∨ n ∈ c.tests := by
  induction c with
  | done => simp [nodes, steps, tests]
  | step m rest ih => simp [nodes, steps, tests, ih, or_assoc]
  | loop body test rest ihb ihr =>
      simp only [nodes, steps, tests, List.mem_append, List.mem_cons, ihb, ihr]
      tauto

theorem header_mem (body : Code) (test : Node) : header body test ∈ body.ids ++ [test.id] := by
  unfold header ids
  cases body.nodes with
  | nil => simp
  | cons n rest => simp

theorem head?_append_cons (body : Code) (test : Node) (l : List ℕ) :
    (body.ids ++ test.id :: l).head? = some (header body test) := by
  unfold header ids
  cases body.nodes <;> simp

theorem eq_done_of_nodes (h : c.nodes = []) : c = done := by
  cases c <;> simp [nodes] at h
  rfl

theorem head?_ids_eq_header (test : Node) (h : body ≠ done) :
    body.ids.head? = some (header body test) := by
  obtain ⟨n, ns, hns⟩ := List.exists_cons_of_ne_nil (fun e => h (eq_done_of_nodes e))
  simp [ids, header, hns]

theorem nodes_append (c d : Code) : (c.append d).nodes = c.nodes ++ d.nodes := by
  induction c with
  | done => rfl
  | step n rest ih => simp [append, nodes, ih]
  | loop body test rest _ ih => simp [append, nodes, ih]

theorem ids_append (c d : Code) : (c.append d).ids = c.ids ++ d.ids := by
  simp [ids, nodes_append]

theorem backs_append (c d : Code) : (c.append d).backs = c.backs ++ d.backs := by
  induction c with
  | done => rfl
  | step n rest ih => exact ih
  | loop body test rest _ ih => simp [append, backs, ih]

theorem append_assoc (c d e : Code) : (c.append d).append e = c.append (d.append e) := by
  induction c with
  | done => rfl
  | step n rest ih => simp [append, ih]
  | loop body test rest _ ih => simp [append, ih]

theorem append_done (c : Code) : c.append done = c := by
  induction c with
  | done => rfl
  | step n rest ih => simp [append, ih]
  | loop body test rest _ ih => simp [append, ih]

/-! ### Back edges -/

theorem map_source_backs (c : Code) : c.backs.map Edge.source = c.tests.map Node.id := by
  induction c with
  | done => rfl
  | step n rest ih => exact ih
  | loop body test rest ihb ihr => simp [backs, tests, ihb, ihr]

theorem tests_sublist_nodes (c : Code) : c.tests.Sublist c.nodes := by
  induction c with
  | done => exact List.Sublist.slnil
  | step n rest ih => exact ih.cons n
  | loop body test rest ihb ihr => exact ihb.append (ihr.cons_cons test)

theorem source_mem_of_mem_backs {e : Edge} (h : e ∈ c.backs) : e.source ∈ c.ids := by
  have hmem := List.mem_map_of_mem (f := Edge.source) h
  rw [map_source_backs] at hmem
  exact ((tests_sublist_nodes c).map Node.id).subset hmem

theorem target_mem_of_mem_backs {e : Edge} (h : e ∈ c.backs) : e.target ∈ c.ids := by
  induction c with
  | done => cases h
  | step n rest ih => exact List.mem_cons_of_mem _ (ih h)
  | loop body test rest ihb ihr =>
      rw [ids_loop]
      rcases List.mem_append.mp h with h | h
      · exact List.mem_append_left _ (ihb h)
      · rcases List.mem_cons.mp h with rfl | h
        · have := header_mem body test
          simp only [List.mem_append, List.mem_cons] at this ⊢
          tauto
        · exact List.mem_append_right _ (List.mem_cons_of_mem _ (ihr h))

/-- Back edges lead back. -/
theorem target_le_source {e : Edge} (hc : c.ids.Pairwise (· < ·)) (h : e ∈ c.backs) :
    e.target ≤ e.source := by
  induction c with
  | done => cases h
  | step n rest ih => exact ih (List.Pairwise.of_cons hc) h
  | loop body test rest ihb ihr =>
      rw [ids_loop, List.pairwise_append] at hc
      rcases List.mem_append.mp h with h | h
      · exact ihb hc.1 h
      · rcases List.mem_cons.mp h with rfl | h
        · rcases List.mem_append.mp (header_mem body test) with hmem | hmem
          · exact Nat.le_of_lt (hc.2.2 _ hmem _ List.mem_cons_self)
          · exact Nat.le_of_eq (List.mem_singleton.mp hmem)
        · exact ihr (List.Pairwise.of_cons hc.2.1) h

theorem nodup_backs (hc : c.ids.Nodup) : c.backs.Nodup := by
  apply List.Nodup.of_map Edge.source
  rw [map_source_backs]
  exact ((tests_sublist_nodes c).map Node.id).nodup hc

/-- The number of loops that begin at a node. -/
def opens (c : Code) (i : ℕ) : ℕ := c.backs.countP (fun e => e.target == i)

/-- The number of loops that end at a node. -/
def closes (c : Code) (i : ℕ) : ℕ := c.backs.countP (fun e => e.source == i)

theorem opens_eq_zero (h : i ∉ c.ids) : c.opens i = 0 := by
  rw [opens, List.countP_eq_zero]
  intro e he heq
  exact h (beq_iff_eq.mp heq ▸ target_mem_of_mem_backs he)

/-- A node that is no test closes no loop. -/
theorem closes_eq_zero_of_not_mem_tests (h : i ∉ c.tests.map Node.id) : c.closes i = 0 := by
  rw [closes, List.countP_eq_zero]
  intro e he heq
  have hsource : e.source ∈ c.tests.map Node.id := map_source_backs c ▸ List.mem_map_of_mem he
  exact h (beq_iff_eq.mp heq ▸ hsource)

theorem closes_eq_zero (h : i ∉ c.ids) : c.closes i = 0 := by
  rw [closes, List.countP_eq_zero]
  intro e he heq
  exact h (beq_iff_eq.mp heq ▸ source_mem_of_mem_backs he)

theorem opens_loop (body : Code) (test : Node) (rest : Code) (i : ℕ) :
    (loop body test rest).opens i =
      body.opens i + (if header body test = i then 1 else 0) + rest.opens i := by
  simp only [opens, backs, List.countP_append, List.countP_cons, beq_iff_eq]
  omega

theorem closes_loop (body : Code) (test : Node) (rest : Code) (i : ℕ) :
    (loop body test rest).closes i =
      body.closes i + (if test.id = i then 1 else 0) + rest.closes i := by
  simp only [closes, backs, List.countP_append, List.countP_cons, beq_iff_eq]
  omega

end Code

/-! ### The spine -/

theorem spine_cons (i : ℕ) (l : List ℕ) :
    spine (i :: l) = (l.head?.map (fun j => ⟨i, j⟩)).toList ++ spine l := by
  cases l <;> rfl

theorem mem_spine_cons {i : ℕ} {l : List ℕ} {e : Edge} :
    e ∈ spine (i :: l) ↔ (e.source = i ∧ l.head? = some e.target) ∨ e ∈ spine l := by
  rw [spine_cons, List.mem_append, Option.mem_toList, Option.map_eq_some_iff]
  constructor
  · rintro (⟨j, hj, rfl⟩ | h)
    · exact Or.inl ⟨rfl, hj⟩
    · exact Or.inr h
  · rintro (⟨rfl, hj⟩ | h)
    · exact Or.inl ⟨e.target, hj, rfl⟩
    · exact Or.inr h

theorem mem_spine_append {l m : List ℕ} {e : Edge} :
    e ∈ spine (l ++ m) ↔ e ∈ spine l ∨
      (l.getLast? = some e.source ∧ m.head? = some e.target) ∨ e ∈ spine m := by
  induction l with
  | nil => simp [spine]
  | cons i l ih =>
      rw [List.cons_append, mem_spine_cons, ih, mem_spine_cons]
      cases l with
      | nil => simp [spine, eq_comm]
      | cons j l =>
          rw [List.getLast?_cons_cons]
          simp only [List.cons_append, List.head?_cons]
          tauto

theorem mem_of_mem_spine {l : List ℕ} {e : Edge} (h : e ∈ spine l) : e.source ∈ l ∧ e.target ∈ l := by
  induction l with
  | nil => cases h
  | cons i l ih =>
      rcases mem_spine_cons.mp h with ⟨hs, ht⟩ | h
      · exact ⟨hs ▸ List.mem_cons_self, List.mem_cons_of_mem _ (List.mem_of_mem_head? ht)⟩
      · exact ⟨List.mem_cons_of_mem _ (ih h).1, List.mem_cons_of_mem _ (ih h).2⟩

theorem source_lt_target {l : List ℕ} (hl : l.Pairwise (· < ·)) {e : Edge} (h : e ∈ spine l) :
    e.source < e.target := by
  induction l with
  | nil => cases h
  | cons i l ih =>
      rw [List.pairwise_cons] at hl
      rcases mem_spine_cons.mp h with ⟨hs, ht⟩ | h
      · exact hs ▸ hl.1 _ (List.mem_of_mem_head? ht)
      · exact ih hl.2 h

/-- The spine leads to the next larger number. -/
theorem target_le_of_mem_spine {l : List ℕ} (hl : l.Pairwise (· < ·)) {e : Edge} (he : e ∈ spine l)
    {k : ℕ} (hk : k ∈ l) (hlt : e.source < k) : e.target ≤ k := by
  induction l with
  | nil => cases hk
  | cons i l ih =>
      rw [List.pairwise_cons] at hl
      rcases mem_spine_cons.mp he with ⟨hs, ht⟩ | htail
      · cases l with
        | nil => cases ht
        | cons next rest =>
            obtain rfl := Option.some.inj ht
            rcases List.mem_cons.mp hk with rfl | hk
            · omega
            · rcases List.mem_cons.mp hk with rfl | hk
              · exact Nat.le_refl _
              · exact Nat.le_of_lt (List.rel_of_pairwise_cons hl.2 hk)
      · rcases List.mem_cons.mp hk with rfl | hk
        · have := hl.1 _ (mem_of_mem_spine htail).1
          omega
        · exact ih hl.2 htail hk

theorem nodup_spine {l : List ℕ} (hl : l.Nodup) : (spine l).Nodup := by
  induction l with
  | nil => exact List.nodup_nil
  | cons i l ih =>
      rw [List.nodup_cons] at hl
      cases l with
      | nil => exact List.nodup_nil
      | cons j l =>
          refine List.nodup_cons.mpr ⟨fun h => ?_, ih hl.2⟩
          exact hl.1 (mem_of_mem_spine h).1

theorem mem_spine_iff_head? {l before behind : List ℕ} {i j : ℕ} (hl : l.Nodup)
    (h : l = before ++ i :: behind) : ⟨i, j⟩ ∈ spine l ↔ behind.head? = some j := by
  rw [h, List.nodup_append, List.nodup_cons] at hl
  have hbefore : i ∉ before := fun hi => hl.2.2 i hi i List.mem_cons_self rfl
  rw [h, mem_spine_append, mem_spine_cons]
  constructor
  · rintro (he | ⟨hlast, _⟩ | ⟨_, hj⟩ | he)
    · exact absurd (mem_of_mem_spine he).1 hbefore
    · exact absurd (List.mem_of_mem_getLast? hlast) hbefore
    · exact hj
    · exact absurd (mem_of_mem_spine he).1 hl.2.1.1
  · exact fun hj => Or.inr (Or.inr (Or.inl ⟨rfl, hj⟩))

theorem mem_spine_iff_getLast? {l before behind : List ℕ} {i j : ℕ} (hl : l.Nodup)
    (h : l = before ++ j :: behind) : ⟨i, j⟩ ∈ spine l ↔ before.getLast? = some i := by
  rw [h, List.nodup_append, List.nodup_cons] at hl
  have hbefore : j ∉ before := fun hj => hl.2.2 j hj j List.mem_cons_self rfl
  rw [h, mem_spine_append, mem_spine_cons]
  constructor
  · rintro (he | ⟨hlast, _⟩ | ⟨_, hj⟩ | he)
    · exact absurd (mem_of_mem_spine he).2 hbefore
    · exact hlast
    · exact absurd (List.mem_of_mem_head? hj) hl.2.1.1
    · exact absurd (mem_of_mem_spine he).2 hl.2.1.1
  · exact fun hlast => Or.inr (Or.inl ⟨hlast, rfl⟩)

theorem target_eq_of_mem_spine {l : List ℕ} {i j k : ℕ} (hl : l.Nodup) (hj : ⟨i, j⟩ ∈ spine l)
    (hk : ⟨i, k⟩ ∈ spine l) : j = k := by
  obtain ⟨before, behind, h⟩ := List.append_of_mem (mem_of_mem_spine hj).1
  rw [mem_spine_iff_head? hl h] at hj hk
  exact Option.some.inj (hj.symm.trans hk)

theorem source_eq_of_mem_spine {l : List ℕ} {i j k : ℕ} (hl : l.Nodup) (hi : ⟨i, k⟩ ∈ spine l)
    (hj : ⟨j, k⟩ ∈ spine l) : i = j := by
  obtain ⟨before, behind, h⟩ := List.append_of_mem (mem_of_mem_spine hi).2
  rw [mem_spine_iff_getLast? hl h] at hi hj
  exact Option.some.inj (hi.symm.trans hj)

theorem head?_ne_of_mem_spine {l : List ℕ} {i j : ℕ} (hl : l.Nodup) (h : ⟨i, j⟩ ∈ spine l) :
    l.head? ≠ some j := by
  intro hhead
  obtain ⟨rest, rfl⟩ := List.head?_eq_some_iff.mp hhead
  have hlast := (mem_spine_iff_getLast? hl (List.nil_append _).symm).mp h
  cases hlast

/-- Each number of a list is the first one or the target of one edge. -/
theorem countP_target_spine {l : List ℕ} (hl : l.Nodup) {i : ℕ} (hi : i ∈ l) :
    (spine l).countP (fun e => e.target == i) + (if l.head? = some i then 1 else 0) = 1 := by
  induction l with
  | nil => cases hi
  | cons j l ih =>
      rw [List.nodup_cons] at hl
      rw [spine_cons, List.countP_append, List.head?_cons]
      by_cases hj : j = i
      · subst hj
        have hnone : (spine l).countP (fun e => e.target == j) = 0 := by
          rw [List.countP_eq_zero]
          intro e he heq
          exact hl.1 (beq_iff_eq.mp heq ▸ (mem_of_mem_spine he).2)
        cases l with
        | nil => simp [hnone]
        | cons k l =>
            have hk : ¬ k = j := fun e => hl.1 (e ▸ List.mem_cons_self)
            simp [hnone, hk]
      · have hmem : i ∈ l := (List.mem_cons.mp hi).resolve_left (Ne.symm hj)
        have := ih hl.2 hmem
        cases l with
        | nil => cases hmem
        | cons k l =>
            simp only [List.head?_cons, Option.some.injEq] at this ⊢
            simp only [Option.map_some, Option.toList_some, List.countP_cons, List.countP_nil,
              beq_iff_eq, hj, if_false]
            omega

/-- Each number of a list is the last one or the source of one edge. -/
theorem countP_source_spine {l : List ℕ} (hl : l.Nodup) {i : ℕ} (hi : i ∈ l) :
    (spine l).countP (fun e => e.source == i) + (if l.getLast? = some i then 1 else 0) = 1 := by
  induction l with
  | nil => cases hi
  | cons j l ih =>
      rw [List.nodup_cons] at hl
      cases l with
      | nil =>
          obtain rfl : i = j := List.mem_singleton.mp hi
          simp [spine]
      | cons k l =>
          rw [List.getLast?_cons_cons, spine, List.countP_cons]
          by_cases hj : j = i
          · subst hj
            have hnone : (spine (k :: l)).countP (fun e => e.source == j) = 0 := by
              rw [List.countP_eq_zero]
              intro e he heq
              exact hl.1 (beq_iff_eq.mp heq ▸ (mem_of_mem_spine he).1)
            have hlast : ¬ (k :: l).getLast? = some j := fun h => hl.1 (List.mem_of_mem_getLast? h)
            rw [hnone, if_neg hlast]
            simp
          · have hmem : i ∈ k :: l := (List.mem_cons.mp hi).resolve_left (Ne.symm hj)
            have := ih hl.2 hmem
            simp only [beq_iff_eq, hj, if_false]
            omega

/-! ### Loops that begin and end at a node -/

/-- Where the edges are those from each node to the next one and some others, a loop begins at a node
for each of the others that leads to it. -/
theorem Graph.loopsOpened_of_perm {g : Graph} {others : List Edge} (hids : g.ids.Nodup)
    (hedges : g.edges.toList.Perm (spine g.ids ++ others)) {i : ℕ} (hi : i ∈ g.ids) :
    g.loopsOpened i = others.countP (fun e => e.target == i) := by
  have hspine := countP_target_spine hids hi
  rw [Graph.loopsOpened, inDegree, predecessors, List.length_map, ← List.countP_eq_length_filter,
    hedges.countP_eq, List.countP_append, first?]
  omega

/-- And a loop ends at a node for each of the others that leads away from it. -/
theorem Graph.loopsClosed_of_perm {g : Graph} {others : List Edge} (hids : g.ids.Nodup)
    (hedges : g.edges.toList.Perm (spine g.ids ++ others)) {i : ℕ} (hi : i ∈ g.ids) :
    g.loopsClosed i = others.countP (fun e => e.source == i) := by
  have hspine := countP_source_spine hids hi
  rw [Graph.loopsClosed, outDegree, successors, List.length_map, ← List.countP_eq_length_filter,
    hedges.countP_eq, List.countP_append, last?]
  omega

/-! ### Graphs that show code -/

/-- The graph has the nodes of the code in order, an edge from each one to the next, and an edge back
for each loop. -/
structure Graph.Shows (g : Graph) (c : Code) : Prop where
  nodes_eq : g.nodes = c.nodes
  mem_edges : ∀ e, e ∈ g.edges ↔ e ∈ spine c.ids ∨ e ∈ c.backs
  numbered : g.Numbered

namespace Graph.Shows

variable {g : Graph} {c : Code}

theorem ids_eq (h : g.Shows c) : g.ids = c.ids := by rw [Graph.ids, h.nodes_eq, Code.ids]

theorem increasing (h : g.Shows c) : c.ids.Pairwise (· < ·) := h.ids_eq ▸ h.numbered.increasing

theorem nodup (h : g.Shows c) : c.ids.Nodup := h.ids_eq ▸ h.numbered.nodup

/-- The edges are the spine and the back edges, each once. -/
theorem edges_perm (h : g.Shows c) : g.edges.toList.Perm (spine c.ids ++ c.backs) := by
  refine (List.perm_ext_iff_of_nodup g.edges.nodup_toList ?_).mpr (fun e => ?_)
  · rw [List.nodup_append']
    refine ⟨nodup_spine h.nodup, Code.nodup_backs h.nodup, fun e he₁ he₂ => ?_⟩
    have := source_lt_target h.increasing he₁
    have := Code.target_le_source h.increasing he₂
    omega
  · rw [List.mem_append, SortedSet.mem_toList, h.mem_edges]

/-- As many loops begin at a node as edges come in beyond the first. -/
theorem loopsOpened (h : g.Shows c) {i : ℕ} (hi : i ∈ c.ids) : g.loopsOpened i = c.opens i := by
  rw [← h.ids_eq] at hi
  exact loopsOpened_of_perm h.numbered.nodup (h.ids_eq ▸ h.edges_perm) hi

/-- As many loops end at a node as edges go out beyond the first. -/
theorem loopsClosed (h : g.Shows c) {i : ℕ} (hi : i ∈ c.ids) : g.loopsClosed i = c.closes i := by
  rw [← h.ids_eq] at hi
  exact loopsClosed_of_perm h.numbered.nodup (h.ids_eq ▸ h.edges_perm) hi

end Graph.Shows

/-! ### Rebuilding the nesting -/

namespace Block

/-- Adds plans to a block. -/
def extend (b : Block) (plans : List Plan) : Block := { b with plans := b.plans ++ plans }

theorem extend_nil (b : Block) : b.extend [] = b := by simp [extend]

theorem extend_extend (b : Block) (ps qs : List Plan) : (b.extend ps).extend qs = b.extend (ps ++ qs) := by
  simp [extend]

theorem openAll_value (id count : ℕ) (stack : List Block) :
    (openAll id count stack).value = List.replicate count ⟨true, []⟩ ++ stack := by
  induction count generalizing stack with
  | zero => rfl
  | succ count ih =>
      rw [openAll, Logged.value_bind, ih, List.replicate_succ', List.append_assoc]
      rfl

theorem closeAll_one (id : ℕ) (condition : Plan) (body : List Plan) (b : Block) (rest : List Block) :
    (closeAll id condition 1 (⟨true, body⟩ :: b :: rest)).value =
      .ok (b.extend [loop body condition] :: rest) := rfl

end Block

namespace Graph

/-- Where no loop ends, a node opens its loops and goes to the innermost block. -/
theorem enterAll_step {g : Graph} {n : Node} {more : List Node} {stack : List Block} {b : Block}
    {rest : List Block} {count : ℕ} (hopen : g.loopsOpened n.id = count)
    (hclose : g.loopsClosed n.id = 0)
    (hstack : List.replicate count ⟨true, []⟩ ++ stack = b :: rest) :
    (g.enterAll (n :: more) stack).value = (g.enterAll more (b.extend [n.op] :: rest)).value := by
  rw [enterAll, Logged.value_bind, enter, Logged.value_bind, Block.openAll_value, hopen, hclose, hstack]
  rfl

/-- Where one loop ends, a node opens its loops and closes the innermost one. -/
theorem enterAll_test {g : Graph} {n : Node} {more : List Node} {stack : List Block} {b : Block}
    {body : List Plan} {rest : List Block} {count : ℕ} (hopen : g.loopsOpened n.id = count)
    (hclose : g.loopsClosed n.id = 1)
    (hstack : List.replicate count ⟨true, []⟩ ++ stack = ⟨true, body⟩ :: b :: rest) :
    (g.enterAll (n :: more) stack).value =
      (g.enterAll more (b.extend [Block.loop body n.op] :: rest)).value := by
  rw [enterAll, Logged.value_bind, enter, Logged.value_bind, Block.openAll_value, hopen, hclose, hstack]
  simp only [Block.closeAll_one]

/-- At the nodes of a piece of code the graph opens and closes the loops of the code, and opens
`count` more that are around it and begin at its first node. -/
structure Fits (g : Graph) (c : Code) (count : ℕ) : Prop where
  nodup : c.ids.Nodup
  opened : ∀ i ∈ c.ids, g.loopsOpened i = c.opens i + if c.ids.head? = some i then count else 0
  closed : ∀ i ∈ c.ids, g.loopsClosed i = c.closes i

namespace Fits

variable {g : Graph} {n test : Node} {body tail : Code} {count : ℕ}

theorem opened_step (h : g.Fits (.step n tail) count) : g.loopsOpened n.id = count := by
  have hn : n.id ∉ tail.ids := (List.nodup_cons.mp h.nodup).1
  have hzero : (Code.step n tail).opens n.id = 0 := Code.opens_eq_zero (c := tail) hn
  rw [h.opened n.id (by simp), hzero]
  simp

theorem closed_step (h : g.Fits (.step n tail) count) : g.loopsClosed n.id = 0 := by
  rw [h.closed n.id (by simp)]
  exact Code.closes_eq_zero (c := tail) (List.nodup_cons.mp h.nodup).1

theorem tail_step (h : g.Fits (.step n tail) count) : g.Fits tail 0 := by
  have hnodup := List.nodup_cons.mp h.nodup
  refine ⟨hnodup.2, fun i hi => ?_, fun i hi => h.closed i (by simp [hi])⟩
  have hne : n.id ≠ i := fun e => hnodup.1 (e ▸ hi)
  have hopens : (Code.step n tail).opens i = tail.opens i := rfl
  rw [h.opened i (by simp [hi]), hopens]
  simp [hne]

theorem nodup_loop (h : g.Fits (.loop body test tail) count) :
    body.ids.Nodup ∧ tail.ids.Nodup ∧ test.id ∉ body.ids ∧ test.id ∉ tail.ids ∧
      ∀ i ∈ body.ids, i ∉ tail.ids := by
  have hnodup := h.nodup
  rw [Code.ids_loop, List.nodup_append'] at hnodup
  obtain ⟨hbody, htail, hdisj⟩ := hnodup
  rw [List.nodup_cons] at htail
  exact ⟨hbody, htail.2, fun hi => hdisj hi List.mem_cons_self, htail.1,
    fun i hi hi' => hdisj hi (List.mem_cons_of_mem _ hi')⟩

/-- The loops around a loop begin where it begins itself. -/
theorem opened_loop (h : g.Fits (.loop body test tail) count) {i : ℕ}
    (hi : i ∈ (Code.loop body test tail).ids) :
    g.loopsOpened i =
      body.opens i + tail.opens i + if Code.header body test = i then count + 1 else 0 := by
  have hhead : (Code.loop body test tail).ids.head? = some (Code.header body test) := by
    rw [Code.ids_loop, Code.head?_append_cons]
  rw [h.opened i hi, Code.opens_loop, hhead]
  simp only [Option.some.injEq]
  split_ifs <;> omega

theorem closed_test (h : g.Fits (.loop body test tail) count) : g.loopsClosed test.id = 1 := by
  obtain ⟨_, _, hbody, htail, _⟩ := h.nodup_loop
  rw [h.closed test.id (by simp), Code.closes_loop, Code.closes_eq_zero hbody,
    Code.closes_eq_zero htail]
  simp

theorem opened_test (h : g.Fits (.loop body test tail) count) :
    g.loopsOpened test.id = if Code.header body test = test.id then count + 1 else 0 := by
  obtain ⟨_, _, hbody, htail, _⟩ := h.nodup_loop
  rw [h.opened_loop (by simp), Code.opens_eq_zero hbody, Code.opens_eq_zero htail]
  omega

/-- The body of a loop has the loop itself around it as well. -/
theorem body_loop (h : g.Fits (.loop body test tail) count) (hne : body ≠ .done) :
    g.Fits body (count + 1) := by
  obtain ⟨hnodup, _, htest, _, hdisj⟩ := h.nodup_loop
  refine ⟨hnodup, fun i hi => ?_, fun i hi => ?_⟩
  · rw [h.opened_loop (by simp [hi]), Code.opens_eq_zero (hdisj i hi),
      Code.head?_ids_eq_header test hne]
    simp only [Option.some.injEq, Nat.add_zero]
  · have htest' : test.id ≠ i := fun e => htest (e ▸ hi)
    rw [h.closed i (by simp [hi]), Code.closes_loop, Code.closes_eq_zero (hdisj i hi),
      if_neg htest', Nat.add_zero]

theorem tail_loop (h : g.Fits (.loop body test tail) count) : g.Fits tail 0 := by
  obtain ⟨_, hnodup, _, htest, hdisj⟩ := h.nodup_loop
  refine ⟨hnodup, fun i hi => ?_, fun i hi => ?_⟩
  · have hbody : i ∉ body.ids := fun hi' => hdisj i hi' hi
    have hhead : Code.header body test ≠ i := by
      intro e
      rcases List.mem_append.mp (Code.header_mem body test) with hmem | hmem
      · exact hbody (e ▸ hmem)
      · exact htest (List.mem_singleton.mp hmem ▸ e ▸ hi)
    rw [h.opened_loop (by simp [hi]), Code.opens_eq_zero hbody, if_neg hhead]
    simp
  · have hbody : i ∉ body.ids := fun hi' => hdisj i hi' hi
    have htest' : test.id ≠ i := fun e => htest (e ▸ hi)
    rw [h.closed i (by simp [hi]), Code.closes_loop, Code.closes_eq_zero hbody, if_neg htest']
    omega

end Fits

/-- Visiting the nodes of a piece of code opens the loops around it and adds its plans to the
innermost block.  The induction is on the code, for any number of loops around it. -/
theorem enterAll_code {g : Graph} {c : Code} {count : ℕ} (h : g.Fits c count)
    (hcount : c = .done → count = 0) (more : List Node) {stack rest : List Block} {b : Block}
    (hstack : List.replicate count ⟨true, []⟩ ++ stack = b :: rest) :
    (g.enterAll (c.nodes ++ more) stack).value =
      (g.enterAll more (b.extend c.plans :: rest)).value := by
  induction c generalizing count more stack rest b with
  | done =>
      rw [hcount rfl, List.replicate_zero, List.nil_append] at hstack
      rw [Code.plans, Block.extend_nil, hstack]
      rfl
  | step n tail ih =>
      rw [Code.nodes, List.cons_append, enterAll_step h.opened_step h.closed_step hstack,
        ih h.tail_step (fun _ => rfl) more rfl, Block.extend_extend]
      rfl
  | loop body test tail ihb iht =>
      have htail : (g.enterAll (tail.nodes ++ more)
          (b.extend [Block.loop body.plans test.op] :: rest)).value =
          (g.enterAll more (b.extend (Code.loop body test tail).plans :: rest)).value := by
        rw [iht h.tail_loop (fun _ => rfl) more rfl, Block.extend_extend]
        rfl
      have hstack' : List.replicate (count + 1) ⟨true, []⟩ ++ stack = ⟨true, []⟩ :: b :: rest := by
        rw [List.replicate_succ, List.cons_append, hstack]
      rw [← htail]
      by_cases hempty : body = .done
      · -- an empty body: the test opens its own loop together with those around it
        subst hempty
        have hopen : g.loopsOpened test.id = count + 1 := by
          rw [h.opened_test]
          simp [Code.header, Code.nodes]
        exact enterAll_test hopen h.closed_test hstack'
      · have hopen : g.loopsOpened test.id = 0 := by
          rw [h.opened_test, if_neg]
          intro e
          have hmem := List.mem_of_mem_head? (Code.head?_ids_eq_header test hempty)
          exact h.nodup_loop.2.2.1 (e ▸ hmem)
        rw [Code.nodes, List.append_assoc, List.cons_append,
          ihb (h.body_loop hempty) (fun e => absurd e hempty) _ hstack']
        exact enterAll_test hopen h.closed_test rfl

/-- **The plan of a graph that shows code** is the sequence of the code's plans. -/
theorem Shows.toPlan {g : Graph} {c : Code} (h : g.Shows c) :
    g.toPlan.value = .ok (.nary {} .sequence c.plans) := by
  have hfits : g.Fits c 0 :=
    ⟨h.nodup, fun i hi => by rw [h.loopsOpened hi]; simp, fun i hi => h.loopsClosed hi⟩
  rw [Graph.toPlan, Logged.value_bind, h.nodes_eq, ← List.append_nil c.nodes,
    enterAll_code hfits (fun _ => rfl) [] rfl]
  rfl

end Graph

/-! ### Proper code -/

/-- The node assigns its target or stores a relation. -/
def Node.IsStatement (n : Node) : Prop :=
  (∃ name p, n.target = some name ∧ n.op = .unary {} (.storeTemp name) p) ∨
    ∃ key p, n.target = none ∧ n.op = .unary {} (.store key) p

theorem Node.IsStatement.exists_unary {n : Node} (hn : n.IsStatement) :
    ∃ op p, n.op = .unary {} op p := by
  rcases hn with ⟨name, p, _, hop⟩ | ⟨key, p, _, hop⟩
  · exact ⟨.storeTemp name, p, hop⟩
  · exact ⟨.store key, p, hop⟩

namespace Code

/-- The nodes outside the tests are statements, the tests assign nothing, and every node lists what
its plan reads. -/
structure Proper (c : Code) : Prop where
  statements : ∀ n ∈ c.steps, n.IsStatement
  conditions : ∀ t ∈ c.tests, t.target = none
  uses_eq : ∀ n ∈ c.nodes, n.uses = n.op.temps

theorem steps_append (c d : Code) : (c.append d).steps = c.steps ++ d.steps := by
  induction c with
  | done => rfl
  | step n rest ih => simp [append, steps, ih]
  | loop body test rest _ ih => simp [append, steps, ih]

theorem tests_append (c d : Code) : (c.append d).tests = c.tests ++ d.tests := by
  induction c with
  | done => rfl
  | step n rest ih => exact ih
  | loop body test rest _ ih => simp [append, tests, ih]

theorem Proper.append {c d : Code} (hc : c.Proper) (hd : d.Proper) : (c.append d).Proper := by
  refine ⟨?_, ?_, ?_⟩
  · rw [steps_append]
    exact List.forall_mem_append.mpr ⟨hc.statements, hd.statements⟩
  · rw [tests_append]
    exact List.forall_mem_append.mpr ⟨hc.conditions, hd.conditions⟩
  · rw [nodes_append]
    exact List.forall_mem_append.mpr ⟨hc.uses_eq, hd.uses_eq⟩

theorem proper_done : done.Proper :=
  ⟨fun _ h => absurd h List.not_mem_nil, fun _ h => absurd h List.not_mem_nil,
    fun _ h => absurd h List.not_mem_nil⟩

theorem proper_step {n : Node} (hn : n.IsStatement) (huses : n.uses = n.op.temps) :
    (step n done).Proper := by
  refine ⟨fun m hm => ?_, fun _ h => absurd h List.not_mem_nil, fun m hm => ?_⟩
  · exact List.mem_singleton.mp hm ▸ hn
  · exact List.mem_singleton.mp hm ▸ huses

theorem Proper.loop {body : Code} {test : Node} (hbody : body.Proper) (htest : test.target = none)
    (huses : test.uses = test.op.temps) : (Code.loop body test done).Proper := by
  refine ⟨?_, ?_, ?_⟩
  · simpa [steps] using hbody.statements
  · simpa [tests, or_imp, forall_and, htest] using hbody.conditions
  · simpa [nodes, or_imp, forall_and, huses] using hbody.uses_eq

/-- A node that assigns something is outside the tests. -/
theorem Proper.not_mem_tests {c : Code} (hc : c.Proper) (hids : c.ids.Nodup) {n : Node}
    (hn : n ∈ c.nodes) {name : String} (htarget : n.target = some name) :
    n.id ∉ c.tests.map Node.id := by
  intro h
  obtain ⟨t, ht, hid⟩ := List.mem_map.mp h
  have heq : t = n := by
    have h₁ := Graph.find?_id_of_mem hids (mem_nodes_of_mem_tests ht)
    have h₂ := Graph.find?_id_of_mem hids hn
    rw [hid, h₂] at h₁
    exact (Option.some.inj h₁).symm
  have := hc.conditions t ht
  rw [heq, htarget] at this
  cases this

/-- The plan below the root reads what the node lists. -/
theorem Proper.uses_of_unary {c : Code} (hc : c.Proper) {n : Node} (hn : n ∈ c.nodes) {notes : Notes}
    {op : Unary} {p : Plan} (hop : n.op = .unary notes op p) : ∀ x ∈ p.temps, x ∈ n.uses := by
  intro x hx
  rw [hc.uses_eq n hn, hop]
  exact Plan.mem_temps_unary.mpr hx

/-- A node that assigns something stores it at its root. -/
theorem Proper.op_eq {c : Code} (hc : c.Proper) {n : Node} (hn : n ∈ c.nodes) {name : String}
    (htarget : n.target = some name) : ∃ p, n.op = .unary {} (.storeTemp name) p := by
  rcases mem_nodes_iff.mp hn with hstep | htest
  · rcases hc.statements n hstep with ⟨name', p, ht, hop⟩ | ⟨_, _, ht, _⟩
    · rw [htarget] at ht
      obtain rfl := Option.some.inj ht
      exact ⟨p, hop⟩
    · rw [htarget] at ht
      cases ht
  · rw [hc.conditions n htest] at htarget
    cases htarget

end Code

end Planner.Flow
