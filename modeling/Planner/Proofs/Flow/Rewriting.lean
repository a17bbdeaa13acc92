import Planner.Proofs.Flow.Code

/-! # Rewriting code

`Code.rewrite` replaces the nodes of a piece of code and leaves out those that have no replacement;
the tests of loops stay in any case, so the nesting of loops is kept, and a body may become empty.

Deleting a node that closes no loop rewrites the code that a graph shows (`Shows.without`): the edges
that led to the node lead to the next one, so the loops that began at the node begin there.
Replacing a node (`Shows.replaceNode`), adding one at the end (`Shows.withNode`) and closing a loop
around the last part of the code (`Shows.connect`) have the same kind of statement. -/

namespace Planner.Flow

namespace Code

variable {c d : Code} {f h : Node → Option Node}

/-- The code with each node replaced, or left out if it has no replacement. -/
def rewrite (f : Node → Option Node) : Code → Code
  | done => done
  | step n rest =>
    match f n with
    | some m => step m (rewrite f rest)
    | none => rewrite f rest
  | loop body test rest => loop (rewrite f body) ((f test).getD test) (rewrite f rest)

theorem nodes_rewrite (hf : ∀ t ∈ c.tests, (f t).isSome) :
    (c.rewrite f).nodes = c.nodes.filterMap f := by
  induction c with
  | done => rfl
  | step n rest ih =>
      rw [rewrite, nodes, List.filterMap_cons]
      cases hn : f n with
      | none => exact ih hf
      | some m => rw [nodes, ih hf]
  | loop body test rest ihb ihr =>
      simp only [tests, List.mem_append, List.mem_cons] at hf
      obtain ⟨m, hm⟩ := Option.isSome_iff_exists.mp (hf test (Or.inr (Or.inl rfl)))
      rw [rewrite, nodes, nodes, List.filterMap_append, List.filterMap_cons, hm,
        ihb (fun t ht => hf t (Or.inl ht)), ihr (fun t ht => hf t (Or.inr (Or.inr ht)))]
      rfl

theorem tests_rewrite (f : Node → Option Node) (c : Code) :
    (c.rewrite f).tests = c.tests.map (fun t => (f t).getD t) := by
  induction c with
  | done => rfl
  | step n rest ih =>
      rw [rewrite]
      cases f n with
      | none => exact ih
      | some m => exact ih
  | loop body test rest ihb ihr => simp [rewrite, tests, ihb, ihr]

theorem steps_rewrite (f : Node → Option Node) (c : Code) :
    (c.rewrite f).steps = c.steps.filterMap f := by
  induction c with
  | done => rfl
  | step n rest ih =>
      rw [rewrite, steps, List.filterMap_cons]
      cases f n with
      | none => exact ih
      | some m => rw [steps, ih]
  | loop body test rest ihb ihr => simp [rewrite, steps, ihb, ihr]

theorem rewrite_congr (hfh : ∀ n ∈ c.nodes, f n = h n) : c.rewrite f = c.rewrite h := by
  induction c with
  | done => rfl
  | step n rest ih =>
      have hrest := ih (fun m hm => hfh m (List.mem_cons_of_mem n hm))
      rw [rewrite, rewrite, hfh n List.mem_cons_self, hrest]
  | loop body test rest ihb ihr =>
      simp only [nodes, List.mem_append, List.mem_cons] at hfh
      rw [rewrite, rewrite, hfh test (Or.inr (Or.inl rfl)), ihb (fun m hm => hfh m (Or.inl hm)),
        ihr (fun m hm => hfh m (Or.inr (Or.inr hm)))]

theorem rewrite_some (c : Code) : c.rewrite some = c := by
  induction c with
  | done => rfl
  | step n rest ih => simp only [rewrite, ih]
  | loop body test rest ihb ihr => simp only [rewrite, ihb, ihr, Option.getD_some]

theorem rewrite_append (f : Node → Option Node) (c d : Code) :
    (c.append d).rewrite f = (c.rewrite f).append (d.rewrite f) := by
  induction c with
  | done => rfl
  | step n rest ih =>
      rw [append, rewrite, rewrite, ih]
      cases f n <;> rfl
  | loop body test rest _ ih => rw [append, rewrite, rewrite, append, ih]

theorem rewrite_rewrite (hf : ∀ t ∈ c.tests, (f t).isSome)
    (hh : ∀ t ∈ c.tests, ∀ m, f t = some m → (h m).isSome) :
    (c.rewrite f).rewrite h = c.rewrite (fun n => (f n).bind h) := by
  induction c with
  | done => rfl
  | step n rest ih =>
      rw [rewrite, rewrite]
      cases hn : f n with
      | none => exact ih hf hh
      | some m =>
          rw [rewrite, Option.bind_some, ih hf hh]
  | loop body test rest ihb ihr =>
      simp only [tests, List.mem_append, List.mem_cons] at hf hh
      obtain ⟨m, hm⟩ := Option.isSome_iff_exists.mp (hf test (Or.inr (Or.inl rfl)))
      obtain ⟨k, hk⟩ := Option.isSome_iff_exists.mp (hh test (Or.inr (Or.inl rfl)) m hm)
      rw [rewrite, rewrite, rewrite, ihb (fun t ht => hf t (Or.inl ht)) (fun t ht => hh t (Or.inl ht)),
        ihr (fun t ht => hf t (Or.inr (Or.inr ht))) (fun t ht => hh t (Or.inr (Or.inr ht)))]
      simp [hm, hk]

/-! ### Replacing nodes -/

theorem ids_rewrite_of_id (hf : ∀ n, ∃ m, f n = some m ∧ m.id = n.id) (c : Code) :
    (c.rewrite f).ids = c.ids := by
  have hsome : ∀ t ∈ c.tests, (f t).isSome := fun t _ => by
    obtain ⟨m, hm, _⟩ := hf t
    rw [hm]
    rfl
  rw [ids, ids, nodes_rewrite hsome]
  induction c.nodes with
  | nil => rfl
  | cons n rest ih =>
      obtain ⟨m, hm, hid⟩ := hf n
      rw [List.filterMap_cons, hm, List.map_cons, List.map_cons, ih, hid]

/-- Puts a node in the place of the one with its number. -/
def swap (n m : Node) : Node := if m.id = n.id then n else m

theorem id_swap (n m : Node) : (swap n m).id = m.id := by
  unfold swap
  split_ifs with h
  · exact h.symm
  · rfl

theorem header_eq_of_ids {body body' : Code} {test test' : Node} (hbody : body'.ids = body.ids)
    (htest : test'.id = test.id) : header body' test' = header body test := by
  have h := head?_append_cons body test []
  have h' := head?_append_cons body' test' []
  rw [hbody, htest, h] at h'
  exact (Option.some.inj h').symm

theorem backs_rewrite_of_id (hf : ∀ n, ∃ m, f n = some m ∧ m.id = n.id) (c : Code) :
    (c.rewrite f).backs = c.backs := by
  induction c with
  | done => rfl
  | step n rest ih =>
      obtain ⟨m, hm, _⟩ := hf n
      rw [rewrite, hm]
      exact ih
  | loop body test rest ihb ihr =>
      obtain ⟨m, hm, hid⟩ := hf test
      have hheader := header_eq_of_ids (ids_rewrite_of_id hf body) hid
      rw [rewrite, backs, backs, hm, Option.getD_some, ihb, ihr, hheader, hid]

/-! ### Leaving out a node -/

/-- Leaves out the node with a number. -/
def drop (i : ℕ) (n : Node) : Option Node := if n.id = i then none else some n

theorem drop_of_ne {i : ℕ} {n : Node} (h : n.id ≠ i) : drop i n = some n := if_neg h

theorem rewrite_drop_of_not_mem {i : ℕ} (h : i ∉ c.ids) : c.rewrite (drop i) = c := by
  have hkeep : ∀ n ∈ c.nodes, drop i n = some n :=
    fun n hn => drop_of_ne (fun e => h (e ▸ List.mem_map_of_mem hn))
  rw [rewrite_congr hkeep, rewrite_some]

theorem filterMap_drop (i : ℕ) (l : List Node) :
    l.filterMap (drop i) = l.filter (fun n => n.id != i) := by
  induction l with
  | nil => rfl
  | cons n rest ih =>
      by_cases h : n.id = i
      · rw [List.filterMap_cons, drop, if_pos h, List.filter_cons_of_neg (by simp [h])]
        exact ih
      · rw [List.filterMap_cons, drop, if_neg h, List.filter_cons_of_pos (by simp [h]), ih]

theorem isSome_drop {i : ℕ} (hi : i ∉ c.tests.map Node.id) : ∀ t ∈ c.tests, (drop i t).isSome := by
  intro t ht
  have hne : t.id ≠ i := fun e => hi (e ▸ List.mem_map_of_mem ht)
  rw [drop_of_ne hne]
  rfl

theorem nodes_drop {i : ℕ} (hi : i ∉ c.tests.map Node.id) :
    (c.rewrite (drop i)).nodes = c.nodes.filter (fun n => n.id != i) := by
  rw [nodes_rewrite (isSome_drop hi), filterMap_drop]

theorem ids_drop {i : ℕ} (hi : i ∉ c.tests.map Node.id) :
    (c.rewrite (drop i)).ids = c.ids.filter (fun j => j != i) := by
  rw [ids, ids, nodes_drop hi, List.filter_map]
  rfl

/-- An edge to a number leads to another one instead. -/
def redirect (i j : ℕ) (e : Edge) : Edge := if e.target = i then ⟨e.source, j⟩ else e

/-- Where the first node of a loop is left out, the loop begins at the next one. -/
theorem header_drop {body : Code} {test : Node} {i j : ℕ} (hbody : body.ids.Nodup)
    (hi : i ∉ body.tests.map Node.id) (htest : test.id ≠ i)
    (hnext : ∀ k, ⟨i, k⟩ ∈ spine (body.ids ++ [test.id]) → k = j) :
    header (body.rewrite (drop i)) test = if header body test = i then j else header body test := by
  have hhead := head?_append_cons body test []
  have hhead' := head?_append_cons (body.rewrite (drop i)) test []
  rw [ids_drop hi] at hhead'
  generalize header body test = k at hhead ⊢
  generalize header (body.rewrite (drop i)) test = k' at hhead' ⊢
  cases hids : body.ids with
  | nil =>
      rw [hids] at hhead hhead'
      obtain rfl : test.id = k := by simpa using hhead
      obtain rfl : test.id = k' := by simpa using hhead'
      rw [if_neg htest]
  | cons a as =>
      rw [hids] at hhead hhead' hbody hnext
      obtain rfl : a = k := by simpa using hhead
      by_cases ha : a = i
      · have has : as.filter (fun b => b != i) = as := by
          rw [List.filter_eq_self]
          intro b hb
          have : b ≠ i := fun e => (List.nodup_cons.mp hbody).1 (ha ▸ e ▸ hb)
          simpa using this
        rw [List.filter_cons_of_neg (by simp [ha]), has] at hhead'
        rw [if_pos ha]
        exact hnext k' (mem_spine_cons.mpr (Or.inl ⟨ha.symm, hhead'⟩))
      · rw [List.filter_cons_of_pos (by simp [ha])] at hhead'
        obtain rfl : a = k' := by simpa using hhead'
        rw [if_neg ha]

theorem backs_drop {i j : ℕ} (hc : c.ids.Nodup) (hi : i ∉ c.tests.map Node.id)
    (hnext : ∀ k, ⟨i, k⟩ ∈ spine c.ids → k = j) :
    (c.rewrite (drop i)).backs = c.backs.map (redirect i j) := by
  induction c with
  | done => rfl
  | step n rest ih =>
      rw [ids_step, List.nodup_cons] at hc
      have hrest := ih hc.2 hi (fun k hk => hnext k (mem_spine_cons.mpr (Or.inr hk)))
      rw [rewrite]
      by_cases hn : n.id = i
      · rw [drop, if_pos hn]
        exact hrest
      · rw [drop_of_ne hn]
        exact hrest
  | loop body test rest ihb ihr =>
      simp only [tests, List.map_append, List.map_cons, List.mem_append, List.mem_cons, not_or] at hi
      obtain ⟨hib, hit, hir⟩ := hi
      rw [ids_loop, ← List.singleton_append, ← List.append_assoc] at hc hnext
      obtain ⟨hbody, hrest, _⟩ := List.nodup_append'.mp hc
      have hnext' : ∀ k, ⟨i, k⟩ ∈ spine (body.ids ++ [test.id]) → k = j :=
        fun k hk => hnext k (mem_spine_append.mpr (Or.inl hk))
      have hb := ihb (List.nodup_append'.mp hbody).1 hib
        (fun k hk => hnext' k (mem_spine_append.mpr (Or.inl hk)))
      have hr := ihr hrest hir (fun k hk => hnext k (mem_spine_append.mpr (Or.inr (Or.inr hk))))
      have hh := header_drop (List.nodup_append'.mp hbody).1 hib (Ne.symm hit) hnext'
      rw [rewrite, drop_of_ne (Ne.symm hit), Option.getD_some, backs, backs, hb, hr, hh,
        List.map_append, List.map_cons]
      congr 2
      unfold redirect
      split_ifs <;> rfl

theorem source_ne_of_mem_backs {i : ℕ} {e : Edge} (hi : i ∉ c.tests.map Node.id) (he : e ∈ c.backs) :
    e.source ≠ i := by
  intro heq
  have hmem := List.mem_map_of_mem (f := Edge.source) he
  rw [map_source_backs, heq] at hmem
  exact hi hmem

/-- A loop that begins at a node and ends at another one has a node behind the first one. -/
theorem exists_next_of_mem_backs {l m : List ℕ} {i s : ℕ} (hids : c.ids = l ++ i :: m)
    (hc : c.ids.Pairwise (· < ·)) (hs : ⟨s, i⟩ ∈ c.backs) (hne : s ≠ i) :
    ∃ j, m.head? = some j ∧ i < j := by
  have hle : i ≤ s := target_le_source hc hs
  have hmem : s ∈ c.ids := source_mem_of_mem_backs hs
  rw [hids, List.pairwise_append, List.pairwise_cons] at hc
  rw [hids] at hmem
  rcases List.mem_append.mp hmem with hl | hm
  · have := hc.2.2 s hl i List.mem_cons_self
    omega
  · obtain hm := (List.mem_cons.mp hm).resolve_left hne
    cases m with
    | nil => cases hm
    | cons j m => exact ⟨j, rfl, hc.2.1.1 j List.mem_cons_self⟩

/-- The back edges where a node has been left out, in terms of the old ones. -/
theorem mem_backs_drop {l m : List ℕ} {i : ℕ} {e : Edge} (hids : c.ids = l ++ i :: m)
    (hc : c.ids.Pairwise (· < ·)) (hi : i ∉ c.tests.map Node.id) :
    e ∈ (c.rewrite (drop i)).backs ↔ e.source ≠ i ∧ e.target ≠ i ∧
      (e ∈ c.backs ∨ ⟨e.source, i⟩ ∈ c.backs ∧ m.head? = some e.target) := by
  have hnodup : c.ids.Nodup := hc.imp Nat.ne_of_lt
  have hspine : ∀ k, ⟨i, k⟩ ∈ spine c.ids → k = m.head?.getD (i + 1) := by
    intro k hk
    rw [mem_spine_iff_head? hnodup hids] at hk
    rw [hk]
    rfl
  rw [backs_drop hnodup hi hspine, List.mem_map]
  constructor
  · rintro ⟨a, ha, rfl⟩
    have hsource := source_ne_of_mem_backs hi ha
    unfold redirect
    split_ifs with htarget
    · obtain ⟨j, hj, hij⟩ := exists_next_of_mem_backs hids hc (htarget ▸ ha) hsource
      rw [hj]
      exact ⟨hsource, Nat.ne_of_gt hij, Or.inr ⟨htarget ▸ ha, rfl⟩⟩
    · exact ⟨hsource, htarget, Or.inl ha⟩
  · rintro ⟨_, htarget, he | ⟨he, hj⟩⟩
    · exact ⟨e, he, if_neg htarget⟩
    · refine ⟨⟨e.source, i⟩, he, ?_⟩
      rw [redirect, if_pos rfl, hj]
      rfl

end Code

theorem filter_ne_append {l m : List ℕ} {i : ℕ} (h : (l ++ i :: m).Nodup) :
    (l ++ i :: m).filter (fun j => j != i) = l ++ m := by
  rw [List.nodup_append', List.nodup_cons] at h
  have hl : ∀ a ∈ l, a ≠ i := fun a ha e => h.2.2 (e ▸ ha) List.mem_cons_self
  have hm : ∀ a ∈ m, a ≠ i := fun a ha e => h.2.1.1 (e ▸ ha)
  rw [List.filter_append, List.filter_cons_of_neg (by simp),
    List.filter_eq_self.mpr (by simpa using hl), List.filter_eq_self.mpr (by simpa using hm)]

theorem mem_spine_drop {l m : List ℕ} {i : ℕ} {e : Edge} (h : (l ++ i :: m).Nodup) :
    e ∈ spine (l ++ m) ↔ e.source ≠ i ∧ e.target ≠ i ∧
      (e ∈ spine (l ++ i :: m) ∨ ⟨e.source, i⟩ ∈ spine (l ++ i :: m) ∧ m.head? = some e.target) := by
  obtain ⟨_, hm, hdisj⟩ := List.nodup_append'.mp h
  have him : i ∉ m := (List.nodup_cons.mp hm).1
  have hil : i ∉ l := fun hi => hdisj hi List.mem_cons_self
  have hl : ∀ a : Edge, a ∈ spine l → a.source ≠ i ∧ a.target ≠ i := fun a ha =>
    ⟨fun e => hil (e ▸ (mem_of_mem_spine ha).1), fun e => hil (e ▸ (mem_of_mem_spine ha).2)⟩
  have hr : ∀ a : Edge, a ∈ spine m → a.source ≠ i ∧ a.target ≠ i := fun a ha =>
    ⟨fun e => him (e ▸ (mem_of_mem_spine ha).1), fun e => him (e ▸ (mem_of_mem_spine ha).2)⟩
  have hlast : l.getLast? = some e.source → e.source ≠ i := fun hs e' =>
    hil (e' ▸ List.mem_of_mem_getLast? hs)
  have hhead : m.head? = some e.target → e.target ≠ i := fun hs e' =>
    him (e' ▸ List.mem_of_mem_head? hs)
  simp only [mem_spine_append, mem_spine_cons, List.head?_cons, Option.some.injEq]
  constructor
  · rintro (he | ⟨hs, ht⟩ | he)
    · exact ⟨(hl e he).1, (hl e he).2, Or.inl (Or.inl he)⟩
    · exact ⟨hlast hs, hhead ht, Or.inr ⟨Or.inr (Or.inl ⟨hs, trivial⟩), ht⟩⟩
    · exact ⟨(hr e he).1, (hr e he).2, Or.inl (Or.inr (Or.inr (Or.inr he)))⟩
  · rintro ⟨hs, ht, (he | ⟨_, he⟩ | ⟨he, _⟩ | he) | ⟨he | ⟨he, _⟩ | ⟨he, _⟩ | he, hnext⟩⟩
    · exact Or.inl he
    · exact absurd he.symm ht
    · exact absurd he hs
    · exact Or.inr (Or.inr he)
    · exact absurd rfl (hl _ he).2
    · exact Or.inr (Or.inl ⟨he, hnext⟩)
    · exact absurd he hs
    · exact absurd rfl (hr _ he).2

namespace Graph

variable {g : Graph} {c : Code}

theorem following?_eq {l m : List ℕ} {i : ℕ} (hids : g.ids = l ++ i :: m)
    (h : g.ids.Pairwise (· < ·)) : g.following? i = m.head? := by
  rw [hids, List.pairwise_append, List.pairwise_cons] at h
  have hl : ∀ a ∈ l, ¬ decide (i < a) = true := by
    intro a ha
    have := h.2.2 a ha i List.mem_cons_self
    simp only [decide_eq_true_eq]
    omega
  rw [following?, hids, List.find?_append, List.find?_eq_none.mpr hl, Option.none_or,
    List.find?_cons_of_neg (by simp)]
  cases m with
  | nil => rfl
  | cons j m => rw [List.find?_cons_of_pos (by simpa using h.2.1.1 j List.mem_cons_self), List.head?_cons]

theorem mem_detours {i : ℕ} {e : Edge} :
    e ∈ g.detours i ↔ g.following? i = some e.target ∧ ⟨e.source, i⟩ ∈ g.edges ∧ e.source ≠ i := by
  unfold detours
  cases g.following? i with
  | none => simp
  | some j =>
      simp only [List.mem_map, List.mem_filter, mem_predecessors, bne_iff_ne, Option.some.injEq]
      constructor
      · rintro ⟨p, ⟨hp, hne⟩, rfl⟩
        exact ⟨rfl, hp, hne⟩
      · rintro ⟨rfl, hp, hne⟩
        exact ⟨e.source, ⟨hp, hne⟩, rfl⟩

theorem mem_edges_without {i : ℕ} {e : Edge} :
    e ∈ (g.without i).edges ↔ e.source ≠ i ∧ e.target ≠ i ∧
      (e ∈ g.edges ∨ ⟨e.source, i⟩ ∈ g.edges ∧ g.following? i = some e.target) := by
  simp only [without, SortedSet.mem_filter, SortedSet.mem_insertAll, mem_detours, Bool.and_eq_true,
    bne_iff_ne]
  tauto

/-- Deleting a node that closes no loop leaves it out of the code. -/
theorem Shows.without (h : g.Shows c) {i : ℕ} (hi : i ∈ c.ids) (ht : i ∉ c.tests.map Node.id) :
    (g.without i).Shows (c.rewrite (Code.drop i)) := by
  obtain ⟨l, m, hids⟩ := List.append_of_mem hi
  have hfilter : c.ids.filter (fun j => j != i) = l ++ m := by
    rw [hids, filter_ne_append (hids ▸ h.nodup)]
  refine ⟨?_, fun e => ?_, h.numbered.without i⟩
  · rw [Code.nodes_drop ht, ← h.nodes_eq]
    rfl
  · have hfollow := following?_eq (h.ids_eq.trans hids) h.numbered.increasing
    rw [mem_edges_without, Code.ids_drop ht, hfilter, mem_spine_drop (hids ▸ h.nodup),
      Code.mem_backs_drop hids h.increasing ht, h.mem_edges, h.mem_edges, hfollow, hids]
    tauto

/-- Replacing a node by one with the same number replaces it in the code. -/
theorem Shows.replaceNode (h : g.Shows c) (n : Node) :
    (g.replaceNode n).Shows (c.rewrite (fun m => some (Code.swap n m))) := by
  have hid : ∀ m, ∃ k, some (Code.swap n m) = some k ∧ k.id = m.id :=
    fun m => ⟨_, rfl, Code.id_swap n m⟩
  refine ⟨?_, fun e => ?_, h.numbered.replaceNode n⟩
  · rw [Code.nodes_rewrite (fun _ _ => rfl), ← h.nodes_eq]
    exact (congrFun List.filterMap_eq_map g.nodes).symm
  · rw [Code.ids_rewrite_of_id hid, Code.backs_rewrite_of_id hid]
    exact h.mem_edges e

theorem Shows.withCells (h : g.Shows c) (cells : Cells) : { g with cells := cells }.Shows c :=
  ⟨h.nodes_eq, h.mem_edges, ⟨h.numbered.increasing, h.numbered.below⟩⟩

/-- What moving a writer into a reader makes of a node. -/
def fuseNode (g : Graph) (writer reader : Node) (name : String) (n : Node) : Option Node :=
  Code.drop writer.id (Code.swap (g.absorbed writer reader name) n)

theorem fuseNode_of_ne {writer n : Node} (h : n.id ≠ writer.id) (reader : Node) (name : String) :
    g.fuseNode writer reader name n = some (Code.swap (g.absorbed writer reader name) n) :=
  Code.drop_of_ne (by rw [Code.id_swap]; exact h)

theorem isSome_fuseNode {writer : Node} (reader : Node) (name : String)
    (hi : writer.id ∉ c.tests.map Node.id) : ∀ t ∈ c.tests, (g.fuseNode writer reader name t).isSome := by
  intro t ht
  rw [fuseNode_of_ne (fun e => hi (e ▸ List.mem_map_of_mem ht))]
  rfl

/-- Moving a node that closes no loop into another one rewrites both in the code. -/
theorem Shows.fused (h : g.Shows c) {writer : Node} (reader : Node) (name : String)
    (hi : writer.id ∈ c.ids) (ht : writer.id ∉ c.tests.map Node.id) :
    (g.fused writer reader name).Shows (c.rewrite (g.fuseNode writer reader name)) := by
  have hid : ∀ m, ∃ k, some (Code.swap (g.absorbed writer reader name) m) = some k ∧ k.id = m.id :=
    fun m => ⟨_, rfl, Code.id_swap _ m⟩
  have htests : writer.id ∉ (c.rewrite
      (fun m => some (Code.swap (g.absorbed writer reader name) m))).tests.map Node.id := by
    rw [Code.tests_rewrite, List.map_map]
    intro h
    obtain ⟨t, htest, hta⟩ := List.mem_map.mp h
    simp only [Function.comp_apply, Option.getD_some, Code.id_swap] at hta
    exact ht (hta ▸ List.mem_map_of_mem htest)
  have hreplace := (h.withCells
    (reader.op.substitute name (writer.stored name) g.cells).2.2).replaceNode
      (g.absorbed writer reader name)
  have hshows := hreplace.without (by rw [Code.ids_rewrite_of_id hid]; exact hi) htests
  rw [Code.rewrite_rewrite (fun _ _ => rfl)] at hshows
  · exact hshows
  · intro t htest m hm
    obtain rfl := Option.some.inj hm
    have hne : (Code.swap (g.absorbed writer reader name) t).id ≠ writer.id := by
      rw [Code.id_swap]
      exact fun e => ht (e ▸ List.mem_map_of_mem htest)
    rw [Code.drop_of_ne hne]
    rfl

/-- A new node comes behind the code. -/
theorem Shows.withNode (h : g.Shows c) (op : Plan) (target : Option String) (uses : NameSet) :
    (g.withNode op target uses).Shows (c.append (.step ⟨g.next, op, target, uses⟩ .done)) := by
  refine ⟨?_, fun e => ?_, h.numbered.withNode op target uses⟩
  · rw [Code.nodes_append, ← h.nodes_eq]
    rfl
  · have hlast : g.last? = c.ids.getLast? := by rw [last?, h.ids_eq]
    have hspine : e ∈ spine (c.ids ++ [g.next]) ↔
        e ∈ spine c.ids ∨ c.ids.getLast? = some e.source ∧ g.next = e.target := by
      rw [mem_spine_append]
      simp [spine]
    rw [Code.ids_append, Code.backs_append]
    simp only [Code.ids_step, Code.ids_done, Code.backs, List.append_nil]
    rw [hspine, Graph.withNode]
    simp only [hlast]
    cases c.ids.getLast? with
    | none => simp [h.mem_edges]
    | some last =>
        simp only [SortedSet.mem_insert, h.mem_edges, Option.some.injEq]
        constructor
        · rintro (rfl | he | he)
          · exact Or.inl (Or.inr ⟨rfl, rfl⟩)
          · exact Or.inl (Or.inl he)
          · exact Or.inr he
        · rintro ((he | ⟨hs, ht⟩) | he)
          · exact Or.inr (Or.inl he)
          · exact Or.inl (by rw [hs, ht])
          · exact Or.inr (Or.inr he)

/-- An edge from the last node back to an earlier one makes a loop of what is between them. -/
theorem Shows.connect {body : Code} {test : Node}
    (h : g.Shows ((c.append body).append (.step test .done))) :
    { g with edges := g.edges.insert ⟨test.id, Code.header body test⟩ }.Shows
      (c.append (.loop body test .done)) := by
  refine ⟨?_, fun e => ?_, ⟨h.numbered.increasing, h.numbered.below⟩⟩
  · rw [h.nodes_eq]
    simp [Code.nodes_append, Code.nodes]
  · have hids : (c.append (.loop body test .done)).ids =
        ((c.append body).append (.step test .done)).ids := by simp [Code.ids_append]
    have hbacks : ((c.append body).append (.step test .done)).backs = c.backs ++ body.backs := by
      simp [Code.backs_append, Code.backs]
    have hbacks' : (c.append (.loop body test .done)).backs =
        c.backs ++ (body.backs ++ [⟨test.id, Code.header body test⟩]) := by
      simp [Code.backs_append, Code.backs]
    rw [hids, hbacks', SortedSet.mem_insert, h.mem_edges, hbacks]
    simp only [List.mem_append, List.mem_singleton]
    tauto

end Graph

end Planner.Flow
