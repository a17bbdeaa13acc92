import Planner.Proofs.Flow.Nesting

/-! # How many sweeps liveness takes

A sweep visits the nodes from the last to the first.  What it finds at a node it has at hand at all
nodes before it, so along the thread names come all the way in one sweep, and only what comes around a
jump waits for the next one (`Liveness.Caught`, `Liveness.caught_sweep`).

A name is read ahead of a node (`Graph.ReadAhead`) if the thread leads to a read of it and it is not
assigned on the way; it is read around a jump (`Graph.ReadAround`) if the thread leads to a jump and
the name is read ahead of where that leads.  Where the jumps are nested, a second jump is never needed:
one that is met before the first is back where the name came from lies within that one, so the thread
has passed where it leads (`ReadAround.cases_jump`).  So all that is live is read ahead or around one
jump (`Represented.bounds_around`).

Main statements: `solve_le_three`, where the jumps are nested a third sweep finds nothing to change;
`solve_le_two`, where there are none a second one does not; `nested_jumps`, the jumps of a graph that
shows code are nested. -/

namespace Planner.Flow

namespace Liveness

variable {g : Graph} {l m t : Liveness} {n : Node} {found : ℕ → Set String} {pre ns : List Node}

/-! ### One sweep -/

theorem Le.refl (l : Liveness) : Le l l := fun _ => ⟨fun _ h => h, fun _ h => h⟩

theorem Le.trans (h₁ : Le l m) (h₂ : Le m t) : Le l t := fun id =>
  ⟨fun x hx => (h₂ id).1 x ((h₁ id).1 x hx), fun x hx => (h₂ id).2 x ((h₁ id).2 x hx)⟩

theorem Ascending.visit (hg : g.Numbered) (h : Ascending g l) (hn : n ∈ g.nodes) (changed : Bool) :
    Ascending g (visit g n (l, changed)).1 ∧ Le l (visit g n (l, changed)).1 ∧
      (visit g n (l, changed)).1.get n.id = transfer g l n := by
  rcases visit_cases g n l changed with ⟨hget, hvisit⟩ | ⟨_, hvisit⟩
  · rw [hvisit]
    exact ⟨h, Le.refl l, hget⟩
  · rw [hvisit]
    exact ⟨h.put hg hn, h.le_put hn, h.get_put hn⟩

/-- An edge from the node leads to where the name was live before the sweep, or on to where the sweep
finds it. -/
def Feeds (g : Graph) (l : Liveness) (found : ℕ → Set String) (i : ℕ) (x : String) : Prop :=
  ∃ s, ⟨i, s⟩ ∈ g.edges ∧ (x ∈ l.before s ∨ i < s ∧ x ∈ found s)

/-- A table on the way of a sweep over the table `l`: at the nodes visited so far it has what the sweep
is to find there. -/
structure Caught (g : Graph) (l : Liveness) (found : ℕ → Set String) (ns : List Node) (t : Liveness) :
    Prop where
  ascending : Ascending g t
  le : Le l t
  before_mem : ∀ n ∈ ns, ∀ x ∈ found n.id, x ∈ t.before n.id
  behind_mem : ∀ n ∈ ns, ∀ x, Feeds g l found n.id x → x ∈ t.behind n.id

theorem mem_of_lt (hg : g.Numbered) (hnodes : g.nodes = pre ++ n :: ns) {k : Node} (hk : k ∈ g.nodes)
    (hlt : n.id < k.id) : k ∈ ns := by
  have hinc := hg.increasing
  rw [Graph.ids, hnodes, List.map_append, List.map_cons, List.pairwise_append] at hinc
  rw [hnodes] at hk
  rcases List.mem_append.mp hk with hk | hk
  · have := hinc.2.2 k.id (List.mem_map_of_mem hk) n.id List.mem_cons_self
    omega
  · rcases List.mem_cons.mp hk with rfl | hk
    · omega
    · exact hk

section Sweep

variable (hg : g.Numbered) (hends : ∀ e ∈ g.edges, e.target ∈ g.ids)
  (hfound : ∀ n ∈ g.nodes, ∀ x ∈ found n.id,
    x ∈ n.uses ∨ n.target ≠ some x ∧ Feeds g l found n.id x)

include hg hends hfound

/-- A visit finds what it is to find: what comes from later nodes has been found there. -/
theorem Caught.visit (hnodes : g.nodes = pre ++ n :: ns) (ht : Caught g l found ns t)
    (changed : Bool) : Caught g l found (n :: ns) (visit g n (t, changed)).1 := by
  have hn : n ∈ g.nodes := by simp [hnodes]
  obtain ⟨hasc, hle, hget⟩ := ht.ascending.visit hg hn changed
  have hbehind : ∀ x, Feeds g l found n.id x → x ∈ (transfer g t n).behind := by
    rintro x ⟨s, hedge, hx⟩
    refine mem_transfer_behind.mpr ⟨s, Graph.mem_successors.mpr hedge, ?_⟩
    rcases hx with hx | ⟨hlt, hx⟩
    · exact (ht.le s).1 x hx
    · obtain ⟨k, hk, rfl⟩ := List.mem_map.mp (hends _ hedge)
      exact ht.before_mem k (mem_of_lt hg hnodes hk hlt) x hx
  refine ⟨hasc, ht.le.trans hle, fun k hk x hx => ?_, fun k hk x hx => ?_⟩
  · rcases List.mem_cons.mp hk with rfl | hk
    · rw [Liveness.before, hget]
      refine mem_transfer_before.mpr ((hfound k hn x hx).imp_right ?_)
      intro hkept
      exact ⟨hbehind x hkept.2, hkept.1⟩
    · exact (hle k.id).1 x (ht.before_mem k hk x hx)
  · rcases List.mem_cons.mp hk with rfl | hk
    · rw [Liveness.behind, hget]
      exact hbehind x hx
    · exact (hle k.id).2 x (ht.behind_mem k hk x hx)

theorem caught_foldr (hl : Ascending g l) (hnodes : g.nodes = pre ++ ns) :
    Caught g l found ns (ns.foldr (visit g) (l, false)).1 := by
  induction ns generalizing pre with
  | nil => exact ⟨hl, Le.refl l, fun _ h => absurd h List.not_mem_nil,
      fun _ h => absurd h List.not_mem_nil⟩
  | cons n ns ih =>
      have hrest : g.nodes = (pre ++ [n]) ++ ns := by simp [hnodes]
      exact (ih hrest).visit hg hends hfound hnodes _

/-- **A sweep finds what it is to find**, at all nodes. -/
theorem caught_sweep (hl : Ascending g l) : Caught g l found g.nodes (sweep g l).1 :=
  caught_foldr hg hends hfound hl (List.nil_append g.nodes).symm

end Sweep

theorem Caught.mem_before (ht : Caught g l found g.nodes t) {i : ℕ} (hi : i ∈ g.ids) {x : String}
    (hx : x ∈ found i) : x ∈ t.before i := by
  obtain ⟨n, hn, rfl⟩ := List.mem_map.mp hi
  exact ht.before_mem n hn x hx

/-! ### The last sweep -/

/-- A table on the way from the start to the result. -/
structure Underway (g : Graph) (l : Liveness) : Prop where
  ascending : Ascending g l
  le : Le l g.liveness.value

theorem underway_start (hg : g.Numbered) : Underway g (start g) := by
  have hw := within_start (solution_liveness hg).bounds
  exact ⟨ascending_start hg, fun id => ⟨hw.before_mem id, hw.behind_mem id⟩⟩

theorem Underway.sweep (hg : g.Numbered) (h : Underway g l) : Underway g (sweep g l).1 := by
  have hbounds := (solution_liveness hg).bounds
  have hw := sweep_induction (P := fun l => Ascending g l ∧ Within l _ _)
    (fun l hl n hn => ⟨hl.1.put hg hn, hl.2.put hbounds hl.1 hn⟩)
    ⟨h.ascending, fun id => (h.le id).1, fun id => (h.le id).2⟩
  exact ⟨hw.1, fun id => ⟨hw.2.before_mem id, hw.2.behind_mem id⟩⟩

/-- The table has all that is live. -/
structure Full (g : Graph) (l : Liveness) : Prop where
  before_mem : ∀ n ∈ g.nodes, ∀ x ∈ g.liveness.value.before n.id, x ∈ l.before n.id
  behind_mem : ∀ n ∈ g.nodes, ∀ x ∈ g.liveness.value.behind n.id, x ∈ l.behind n.id

theorem Full.get_eq (hg : g.Numbered) (hfull : Full g l) (h : Underway g l) :
    ∀ n ∈ g.nodes, l.get n.id = transfer g l n := by
  intro n hn
  have hget := (solve_sweeps hg).get_eq n hn
  rw [← liveness_value] at hget
  have hbefore : (l.get n.id).before = (transfer g l n).before := by
    refine SortedSet.ext_mem (fun x => ⟨h.ascending.before_mem n hn x, fun hx => ?_⟩)
    refine hfull.before_mem n hn x ?_
    rw [Liveness.before, hget]
    exact h.le.transfer_before hx
  have hbehind : (l.get n.id).behind = (transfer g l n).behind := by
    refine SortedSet.ext_mem (fun x => ⟨h.ascending.behind_mem n hn x, fun hx => ?_⟩)
    refine hfull.behind_mem n hn x ?_
    rw [Liveness.behind, hget]
    exact h.le.transfer_behind hx
  rw [LiveSets.mk.injEq]
  exact ⟨id_get, hbefore, hbehind⟩

theorem foldr_visit_of_get_eq (h : ∀ n ∈ ns, l.get n.id = transfer g l n) :
    ns.foldr (visit g) (l, false) = (l, false) := by
  induction ns with
  | nil => rfl
  | cons n ns ih =>
      rw [List.foldr_cons, ih (fun k hk => h k (List.mem_cons_of_mem n hk))]
      exact if_pos (h n List.mem_cons_self)

theorem Sweeps.count_eq_one {count : ℕ} (hs : Sweeps g l count m) (hg : g.Numbered)
    (hfull : Full g l) (h : Underway g l) : count = 1 := by
  have hsweep : Liveness.sweep g l = (l, false) := foldr_visit_of_get_eq (hfull.get_eq hg h)
  cases hs with
  | last _ => rfl
  | more hmore _ =>
      rw [hsweep] at hmore
      cases hmore

theorem Sweeps.cases_first {count : ℕ} (hs : Sweeps g l count m) :
    count = 1 ∨ ∃ rest, count = rest + 1 ∧ Sweeps g (Liveness.sweep g l).1 rest m := by
  cases hs with
  | last _ => exact Or.inl rfl
  | more hmore hrest =>
      rw [hmore]
      exact Or.inr ⟨_, rfl, hrest⟩

end Liveness

namespace Graph

variable {g : Graph} {points : Set ℕ} {n : Node} {x : String} {i j k s : ℕ}

/-! ### Ahead and around -/

/-- No node from number `i` on assigns the name, up to the node with number `j`. -/
def KeptTo (g : Graph) (x : String) (i j : ℕ) : Prop :=
  ∀ n ∈ g.nodes, i ≤ n.id → n.id < j → n.target ≠ some x

theorem KeptTo.mono (h : g.KeptTo x i j) {i' j' : ℕ} (hi : i ≤ i') (hj : j' ≤ j) :
    g.KeptTo x i' j' :=
  fun n hn hle hlt => h n hn (Nat.le_trans hi hle) (Nat.lt_of_lt_of_le hlt hj)

theorem KeptTo.trans (h₁ : g.KeptTo x i j) (h₂ : g.KeptTo x j k) : g.KeptTo x i k := by
  intro n hn hle hlt
  rcases Nat.lt_or_ge n.id j with hj | hj
  · exact h₁ n hn hle hj
  · exact h₂ n hn hj hlt

/-- A node that does not assign the name keeps it up to where the next node may be. -/
theorem Numbered.keptTo (hg : g.Numbered) (hn : n ∈ g.nodes) (htarget : n.target ≠ some x)
    (hnext : ∀ m ∈ g.nodes, n.id < m.id → j ≤ m.id) : g.KeptTo x n.id j := by
  intro m hm hle hlt
  rcases Nat.lt_or_eq_of_le hle with hless | heq
  · have := hnext m hm hless
    omega
  · rw [hg.eq_of_id hm hn heq.symm]
    exact htarget

/-- The thread leads from the node to a read of the name, and nothing on the way assigns it. -/
def ReadAhead (g : Graph) (x : String) (i : ℕ) : Prop :=
  ∃ r ∈ g.nodes, i ≤ r.id ∧ x ∈ r.uses ∧ g.KeptTo x i r.id

/-- The thread leads from the node to a jump, nothing on the way assigns the name, and it is read ahead
of where the jump leads. -/
def ReadAround (g : Graph) (x : String) (i : ℕ) : Prop :=
  ∃ e ∈ g.jumps, i ≤ e.source ∧ g.KeptTo x i (e.source + 1) ∧ g.ReadAhead x e.target

theorem ReadAhead.of_kept (h : g.ReadAhead x j) (hij : i ≤ j) (hkept : g.KeptTo x i j) :
    g.ReadAhead x i := by
  obtain ⟨r, hr, hle, huses, hrest⟩ := h
  exact ⟨r, hr, Nat.le_trans hij hle, huses, hkept.trans hrest⟩

theorem ReadAround.of_kept (h : g.ReadAround x j) (hij : i ≤ j) (hkept : g.KeptTo x i j) :
    g.ReadAround x i := by
  obtain ⟨e, he, hle, hrest, hahead⟩ := h
  exact ⟨e, he, Nat.le_trans hij hle, hkept.trans hrest, hahead⟩

theorem Numbered.exists_next (hg : g.Numbered) (hi : i ∈ g.ids) (hj : j ∈ g.ids) (hlt : i < j) :
    ∃ s, ⟨i, s⟩ ∈ spine g.ids ∧ i < s ∧ s ≤ j := by
  cases hnext : g.following? i with
  | none =>
      have hnone := List.find?_eq_none.mp hnext j hj
      simp only [decide_eq_true_eq] at hnone
      omega
  | some s =>
      have hspine := (hg.following?_iff hi).mp hnext
      exact ⟨s, hspine, source_lt_target hg.increasing hspine,
        target_le_of_mem_spine hg.increasing hspine hj hlt⟩

theorem ReadAhead.next (h : g.ReadAhead x n.id) (hg : g.Numbered) (hn : n ∈ g.nodes) :
    x ∈ n.uses ∨ n.target ≠ some x ∧ ∃ s, ⟨n.id, s⟩ ∈ spine g.ids ∧ n.id < s ∧ g.ReadAhead x s := by
  obtain ⟨r, hr, hle, huses, hkept⟩ := h
  rcases Nat.lt_or_eq_of_le hle with hlt | heq
  · obtain ⟨s, hspine, hns, hsr⟩ :=
      hg.exists_next (List.mem_map_of_mem hn) (List.mem_map_of_mem hr) hlt
    refine Or.inr ⟨hkept n hn (Nat.le_refl _) hlt, s, hspine, hns, r, hr, hsr, huses, ?_⟩
    exact hkept.mono (Nat.le_of_lt hns) (Nat.le_refl _)
  · rw [hg.eq_of_id hn hr heq]
    exact Or.inl huses

/-- What is read around a jump is read ahead of where a jump from the node leads, or around a jump from
the next node on. -/
theorem ReadAround.next (h : g.ReadAround x n.id) (hg : g.Represented points) (hn : n ∈ g.nodes) :
    n.target ≠ some x ∧ ((∃ s, ⟨n.id, s⟩ ∈ g.jumps ∧ g.ReadAhead x s) ∨
      ∃ s, ⟨n.id, s⟩ ∈ spine g.ids ∧ n.id < s ∧ g.ReadAround x s) := by
  obtain ⟨e, he, hle, hkept, hahead⟩ := h
  refine ⟨hkept n hn (Nat.le_refl _) (by omega), ?_⟩
  rcases Nat.lt_or_eq_of_le hle with hlt | heq
  · obtain ⟨s, hspine, hns, hse⟩ := hg.threaded.numbered.exists_next (List.mem_map_of_mem hn)
      (hg.mem_jumps_ids he).1 hlt
    refine Or.inr ⟨s, hspine, hns, e, he, hse, ?_, hahead⟩
    exact hkept.mono (Nat.le_of_lt hns) (Nat.le_refl _)
  · rw [heq]
    exact Or.inl ⟨e.target, he, hahead⟩

/-- **One jump is enough.**  Behind a jump, what is read around another one is read ahead, or around
the other one without the first. -/
theorem ReadAround.cases_jump (h : g.ReadAround x s) (hnested : Nested g.jumps)
    (hjump : ⟨i, s⟩ ∈ g.jumps) : g.ReadAhead x s ∨ g.ReadAround x i := by
  obtain ⟨e, he, hle, hkept, hahead⟩ := h
  have hback : s ≤ i := hnested.back _ hjump
  rcases Nat.lt_or_ge e.source i with hlt | hge
  · -- The other jump lies within the first one, so the thread passes where it leads.
    have hin : s ≤ e.target := by
      by_contra hout
      have hcross : i ≤ e.source := hnested.apart e he _ hjump (Nat.lt_of_not_le hout) hle
      omega
    have hinner := hnested.back e he
    exact Or.inl (hahead.of_kept hin (hkept.mono (Nat.le_refl _) (by omega)))
  · exact Or.inr ⟨e, he, hge, hkept.mono hback (Nat.le_refl _), hahead⟩

namespace Represented

theorem mem_spine_or_jumps (hg : g.Represented points) {e : Edge} (he : e ∈ g.edges) :
    e ∈ spine g.ids ∨ e ∈ g.jumps :=
  List.mem_append.mp (hg.edges_perm.mem_iff.mp he)

theorem bounds_around (hg : g.Represented points) (hnested : Nested g.jumps) :
    Liveness.Bounds g (fun i => { x | g.ReadAhead x i ∨ g.ReadAround x i })
      (fun i => { x | ∃ s ∈ g.successors i, g.ReadAhead x s ∨ g.ReadAround x s }) where
  uses := by
    intro n hn x hx
    exact Or.inl ⟨n, hn, Nat.le_refl _, hx, fun m _ hle hlt => absurd hle (Nat.not_le_of_lt hlt)⟩
  through := by
    rintro n hn x ⟨s, hs, hx⟩ htarget
    have hnum := hg.threaded.numbered
    rcases hg.mem_spine_or_jumps (mem_successors.mp hs) with hspine | hjump
    · have hlt : n.id < s := source_lt_target hnum.increasing hspine
      have hkept : g.KeptTo x n.id s := hnum.keptTo hn htarget
        (fun m hm => target_le_of_mem_spine hnum.increasing hspine (List.mem_map_of_mem hm))
      exact hx.imp (fun h => h.of_kept (Nat.le_of_lt hlt) hkept)
        (fun h => h.of_kept (Nat.le_of_lt hlt) hkept)
    · have haround : g.ReadAhead x s → g.ReadAround x n.id := fun hahead =>
        ⟨_, hjump, Nat.le_refl _, hnum.keptTo hn htarget (fun _ _ hlt => hlt), hahead⟩
      rcases hx with hx | hx
      · exact Or.inr (haround hx)
      · exact Or.inr ((hx.cases_jump hnested hjump).elim haround id)
  joins := fun _ _ s hs _ hx => ⟨s, hs, hx⟩

theorem read_of_before (hg : g.Represented points) (hnested : Nested g.jumps)
    (hx : x ∈ g.liveness.value.before i) : g.ReadAhead x i ∨ g.ReadAround x i :=
  (Liveness.within_liveness hg.threaded.numbered (hg.bounds_around hnested)).before_mem i x hx

theorem read_of_behind (hg : g.Represented points) (hnested : Nested g.jumps) (hn : n ∈ g.nodes)
    (hx : x ∈ g.liveness.value.behind n.id) :
    ∃ s, ⟨n.id, s⟩ ∈ g.edges ∧ (g.ReadAhead x s ∨ n.id < s ∧ g.ReadAround x s) := by
  have hnum := hg.threaded.numbered
  obtain ⟨s, hs, hbefore⟩ := ((Liveness.solution_liveness hnum).behind_iff n hn x).mp hx
  have hedge := mem_successors.mp hs
  rcases hg.read_of_before hnested hbefore with hahead | haround
  · exact ⟨s, hedge, Or.inl hahead⟩
  rcases hg.mem_spine_or_jumps hedge with hspine | hjump
  · exact ⟨s, hedge, Or.inr ⟨source_lt_target hnum.increasing hspine, haround⟩⟩
  rcases haround.cases_jump hnested hjump with hahead | hhere
  · exact ⟨s, hedge, Or.inl hahead⟩
  · obtain ⟨_, ⟨s, hjump, hahead⟩ | ⟨s, hspine, hlt, hnext⟩⟩ := hhere.next hg hn
    · exact ⟨s, (mem_jumps.mp hjump).1, Or.inl hahead⟩
    · exact ⟨s, hg.threaded.spine_mem _ hspine, Or.inr ⟨hlt, hnext⟩⟩

/-! ### The first two sweeps -/

theorem caught_ahead (hg : g.Represented points) {l : Liveness} (hl : Liveness.Ascending g l) :
    Liveness.Caught g l (fun i => { x | g.ReadAhead x i }) g.nodes (Liveness.sweep g l).1 := by
  have hnum := hg.threaded.numbered
  refine Liveness.caught_sweep hnum (fun e he => (hg.ends_mem e he).2) ?_ hl
  intro n hn x hx
  refine (ReadAhead.next hx hnum hn).imp_right ?_
  rintro ⟨htarget, s, hspine, hlt, hahead⟩
  exact ⟨htarget, s, hg.threaded.spine_mem _ hspine, Or.inr ⟨hlt, hahead⟩⟩

theorem caught_around (hg : g.Represented points) {l : Liveness} (hl : Liveness.Ascending g l)
    (hahead : ∀ i ∈ g.ids, ∀ x, g.ReadAhead x i → x ∈ l.before i) :
    Liveness.Caught g l (fun i => { x | g.ReadAhead x i ∨ g.ReadAround x i }) g.nodes
      (Liveness.sweep g l).1 := by
  have hnum := hg.threaded.numbered
  refine Liveness.caught_sweep hnum (fun e he => (hg.ends_mem e he).2) ?_ hl
  rintro n hn x (hx | hx)
  · refine (hx.next hnum hn).imp_right ?_
    rintro ⟨htarget, s, hspine, hlt, hnext⟩
    exact ⟨htarget, s, hg.threaded.spine_mem _ hspine, Or.inr ⟨hlt, Or.inl hnext⟩⟩
  · obtain ⟨htarget, ⟨s, hjump, hread⟩ | ⟨s, hspine, hlt, hnext⟩⟩ := hx.next hg hn
    · have hs := hahead s (hg.mem_jumps_ids hjump).2 x hread
      exact Or.inr ⟨htarget, s, (mem_jumps.mp hjump).1, Or.inl hs⟩
    · exact Or.inr ⟨htarget, s, hg.threaded.spine_mem _ hspine, Or.inr ⟨hlt, Or.inr hnext⟩⟩

end Represented

/-! ### The number of sweeps -/

/-- Two sweeps find all that is live where the jumps are nested. -/
theorem Represented.full_second (hg : g.Represented points) (hnested : Nested g.jumps) :
    Liveness.Full g (Liveness.sweep g (Liveness.sweep g (Liveness.start g)).1).1 := by
  have hfirst := hg.caught_ahead (Liveness.ascending_start hg.threaded.numbered)
  have hsecond := hg.caught_around hfirst.ascending (fun i hi x hx => hfirst.mem_before hi hx)
  refine ⟨fun n hn x hx => ?_, fun n hn x hx => ?_⟩
  · exact hsecond.before_mem n hn x (hg.read_of_before hnested hx)
  · refine hsecond.behind_mem n hn x ?_
    obtain ⟨s, hedge, hahead | ⟨hlt, haround⟩⟩ := hg.read_of_behind hnested hn hx
    · exact ⟨s, hedge, Or.inl (hfirst.mem_before (hg.ends_mem _ hedge).2 hahead)⟩
    · exact ⟨s, hedge, Or.inr ⟨hlt, Or.inr haround⟩⟩

theorem Represented.full_first (hg : g.Represented points) (hnone : g.jumps = []) :
    Liveness.Full g (Liveness.sweep g (Liveness.start g)).1 := by
  have hnested : Nested g.jumps := by
    rw [hnone]
    exact ⟨fun _ h => absurd h List.not_mem_nil, fun _ h => absurd h List.not_mem_nil⟩
  have hnever : ∀ x i, ¬ g.ReadAround x i := by
    rintro x i ⟨e, he, _⟩
    rw [hnone] at he
    cases he
  have hfirst := hg.caught_ahead (Liveness.ascending_start hg.threaded.numbered)
  refine ⟨fun n hn x hx => ?_, fun n hn x hx => ?_⟩
  · exact hfirst.before_mem n hn x ((hg.read_of_before hnested hx).resolve_right (hnever x n.id))
  · refine hfirst.behind_mem n hn x ?_
    obtain ⟨s, hedge, hahead | ⟨_, haround⟩⟩ := hg.read_of_behind hnested hn hx
    · refine ⟨s, hedge, Or.inr ⟨?_, hahead⟩⟩
      rcases hg.mem_spine_or_jumps hedge with hspine | hjump
      · exact source_lt_target hg.threaded.numbered.increasing hspine
      · rw [hnone] at hjump
        cases hjump
    · exact absurd haround (hnever x s)

/-- **Three sweeps are enough where the jumps are nested**, however deep. -/
theorem Represented.solve_le_three (hg : g.Represented points) (hnested : Nested g.jumps) :
    (Liveness.solve g).2 ≤ 3 := by
  have hnum := hg.threaded.numbered
  have hsecond := ((Liveness.underway_start hnum).sweep hnum).sweep hnum
  rcases (Liveness.solve_sweeps hnum).cases_first with hone | ⟨rest, hcount, hrest⟩
  · omega
  rcases hrest.cases_first with hone | ⟨last, hcount', hlast⟩
  · omega
  have hone := hlast.count_eq_one hnum (hg.full_second hnested) hsecond
  omega

/-- **Two sweeps are enough without jumps.** -/
theorem Represented.solve_le_two (hg : g.Represented points) (hnone : g.jumps = []) :
    (Liveness.solve g).2 ≤ 2 := by
  have hnum := hg.threaded.numbered
  have hfirst := (Liveness.underway_start hnum).sweep hnum
  rcases (Liveness.solve_sweeps hnum).cases_first with hone | ⟨rest, hcount, hrest⟩
  · omega
  have hone := hrest.count_eq_one hnum (hg.full_first hnone) hfirst
  omega

end Graph

/-! ### Graphs of code -/

namespace Code

variable {c body : Code} {test : Node}

theorem header_le {l : List ℕ} (h : (body.ids ++ test.id :: l).Pairwise (· < ·)) :
    ∀ i ∈ body.ids ++ [test.id], header body test ≤ i := by
  have hhead := head?_append_cons body test []
  have hsorted : (body.ids ++ [test.id]).Pairwise (· < ·) :=
    h.sublist (List.Sublist.append_left (List.Sublist.cons_cons _ (List.nil_sublist l)) _)
  obtain ⟨rest, hrest⟩ := List.head?_eq_some_iff.mp hhead
  rw [hrest] at hsorted ⊢
  intro i hi
  rcases List.mem_cons.mp hi with rfl | hi
  · exact Nat.le_refl _
  · exact Nat.le_of_lt (List.rel_of_pairwise_cons hsorted hi)

theorem nested_backs (hc : c.ids.Pairwise (· < ·)) : Nested c.backs := by
  induction c with
  | done => exact ⟨fun _ h => absurd h List.not_mem_nil, fun _ h => absurd h List.not_mem_nil⟩
  | step n rest ih => exact ih hc.of_cons
  | loop body test rest ihb ihr =>
      rw [ids_loop] at hc
      have hfirst := header_le hc
      rw [List.pairwise_append, List.pairwise_cons] at hc
      obtain ⟨hbody, ⟨hrest, hafter⟩, hbefore⟩ := hc
      have hwithin : ∀ e ∈ body.backs, header body test ≤ e.target ∧ e.source < test.id := by
        intro e he
        refine ⟨hfirst _ (List.mem_append_left _ (target_mem_of_mem_backs he)), ?_⟩
        exact hbefore _ (source_mem_of_mem_backs he) _ List.mem_cons_self
      have hown : header body test ≤ test.id :=
        hfirst _ (List.mem_append_right _ List.mem_cons_self)
      have hloop : Nested (body.backs ++ [⟨test.id, header body test⟩]) :=
        (ihb hbody).around hown (fun e he => ⟨(hwithin e he).1, Nat.le_of_lt (hwithin e he).2⟩)
      rw [backs, ← List.singleton_append, ← List.append_assoc]
      refine hloop.append (ihr hafter) ?_
      intro e he f hf
      have hlt : test.id < f.target := hrest _ (target_mem_of_mem_backs hf)
      rcases List.mem_append.mp he with he | he
      · exact Nat.lt_trans (hwithin e he).2 hlt
      · rw [List.mem_singleton.mp he]
        exact hlt

end Code

namespace Graph.Shows

variable {g : Graph} {c : Code}

theorem represented (h : g.Shows c) : g.Represented { i | i ∈ g.ids } := by
  refine ⟨rfl, fun e he => ?_, h.threaded⟩
  rw [h.ids_eq]
  rcases (h.mem_edges e).mp he with hspine | hback
  · exact mem_of_mem_spine hspine
  · exact ⟨Code.source_mem_of_mem_backs hback, Code.target_mem_of_mem_backs hback⟩

theorem mem_backs_of_mem_jumps (h : g.Shows c) : ∀ e ∈ g.jumps, e ∈ c.backs := by
  intro e he
  have hsource := (h.represented.mem_jumps_ids he).1
  obtain ⟨hedge, hskips⟩ := mem_jumps.mp he
  refine ((h.mem_edges e).mp hedge).resolve_left (fun hspine => hskips ?_)
  exact (h.numbered.following?_iff hsource).mpr (h.ids_eq ▸ hspine)

theorem nested_jumps (h : g.Shows c) : Nested g.jumps :=
  (Code.nested_backs h.increasing).of_subset h.mem_backs_of_mem_jumps

theorem jumps_eq_nil (h : g.Shows c) (hnone : c.tests = []) : g.jumps = [] := by
  have hbacks : c.backs = [] := by
    rw [← List.map_eq_nil_iff (f := Edge.source), Code.map_source_backs, hnone, List.map_nil]
  refine List.eq_nil_iff_forall_not_mem.mpr (fun e he => ?_)
  have hback := h.mem_backs_of_mem_jumps e he
  rw [hbacks] at hback
  cases hback

end Graph.Shows

end Planner.Flow
