import Mathlib.Data.Finset.Max
import Planner.Proofs.Flow.Outline

/-! # Loops and jumps

Structuring counts the edges at each node and does not look where they lead, so its loops have the
sources and the targets of the jumps (`Walk.sources_visitAll`, `Walk.targets_visitAll`), but they need
not be the jumps.  The loops are always nested (`Walk.Tidy`): they lead back and no two of them cross.
Nested edges are determined by their sources and their targets (`Nested.perm`).  Main statement:
`loops_perm_jumps_iff_nested`, the loops are the jumps exactly if the jumps are nested. -/

namespace Planner.Flow

/-! ### Nested edges -/

/-- Edges that lead back and do not cross: where one begins within another one, it ends there. -/
structure Nested (edges : List Edge) : Prop where
  back : ∀ e ∈ edges, e.target ≤ e.source
  apart : ∀ e ∈ edges, ∀ f ∈ edges, e.target < f.target → f.target ≤ e.source → f.source ≤ e.source

namespace Nested

variable {l m : List Edge} {s t : ℕ}

theorem of_subset (hl : Nested l) (h : ∀ e ∈ m, e ∈ l) : Nested m :=
  ⟨fun e he => hl.back e (h e he), fun e he f hf => hl.apart e (h e he) f (h f hf)⟩

/-- Edges behind others do not cross them. -/
theorem append (hl : Nested l) (hm : Nested m) (h : ∀ e ∈ l, ∀ f ∈ m, e.source < f.target) :
    Nested (l ++ m) := by
  refine ⟨List.forall_mem_append.mpr ⟨hl.back, hm.back⟩, ?_⟩
  intro e he f hf hlt hle
  rcases List.mem_append.mp he with he | he <;> rcases List.mem_append.mp hf with hf | hf
  · exact hl.apart e he f hf hlt hle
  · have := h e he f hf
    omega
  · have := h f hf e he
    have := hl.back f hf
    omega
  · exact hm.apart e he f hf hlt hle

/-- An edge around others does not cross them. -/
theorem around (hl : Nested l) {outer : Edge} (hback : outer.target ≤ outer.source)
    (h : ∀ e ∈ l, outer.target ≤ e.target ∧ e.source ≤ outer.source) : Nested (l ++ [outer]) := by
  refine ⟨List.forall_mem_append.mpr ⟨hl.back, List.forall_mem_singleton.mpr hback⟩, ?_⟩
  intro e he f hf hlt hle
  simp only [List.mem_append, List.mem_singleton] at he hf
  rcases he with he | rfl <;> rcases hf with hf | rfl
  · exact hl.apart e he f hf hlt hle
  · have := h e he
    omega
  · exact (h f hf).2
  · omega

/-- The first source and the last target that is not behind it belong to one edge. -/
theorem mem_innermost (hl : Nested l) (hs : s ∈ l.map Edge.source)
    (hfirst : ∀ i ∈ l.map Edge.source, s ≤ i) (ht : t ∈ l.map Edge.target) (hle : t ≤ s)
    (hlast : ∀ i ∈ l.map Edge.target, i ≤ s → i ≤ t) : ⟨s, t⟩ ∈ l := by
  obtain ⟨e, he, rfl⟩ := List.mem_map.mp hs
  obtain ⟨f, hf, rfl⟩ := List.mem_map.mp ht
  have hback := hlast e.target (List.mem_map_of_mem he) (hl.back e he)
  have hsource := hfirst f.source (List.mem_map_of_mem hf)
  rcases Nat.lt_or_ge e.target f.target with hlt | hge
  · have hsame : f.source = e.source := Nat.le_antisymm (hl.apart e he f hf hlt hle) hsource
    exact hsame ▸ hf
  · have hsame : e.target = f.target := Nat.le_antisymm hback hge
    exact hsame ▸ he

theorem exists_innermost (hl : Nested l) (hne : l ≠ []) : ∃ s t, s ∈ l.map Edge.source ∧
    (∀ i ∈ l.map Edge.source, s ≤ i) ∧ t ∈ l.map Edge.target ∧ t ≤ s ∧
      ∀ i ∈ l.map Edge.target, i ≤ s → i ≤ t := by
  obtain ⟨e, he, hfirst⟩ := Finset.exists_min_image l.toFinset Edge.source
    (List.toFinset_nonempty_iff l |>.mpr hne)
  rw [List.mem_toFinset] at he
  obtain ⟨f, hf, hlast⟩ := Finset.exists_max_image
    (l.toFinset.filter (fun f => f.target ≤ e.source)) Edge.target
    ⟨e, Finset.mem_filter.mpr ⟨List.mem_toFinset.mpr he, hl.back e he⟩⟩
  rw [Finset.mem_filter, List.mem_toFinset] at hf
  refine ⟨e.source, f.target, List.mem_map_of_mem he, ?_, List.mem_map_of_mem hf.1, hf.2, ?_⟩
  · rw [List.forall_mem_map]
    exact fun d hd => hfirst d (List.mem_toFinset.mpr hd)
  · rw [List.forall_mem_map]
    exact fun d hd hle => hlast d (Finset.mem_filter.mpr ⟨List.mem_toFinset.mpr hd, hle⟩)

/-- **Nested edges are determined by their sources and their targets.**  The induction takes away the
edge from the first source, which leads to the last target that is not behind it. -/
theorem perm (hl : Nested l) (hm : Nested m)
    (hsources : (l.map Edge.source).Perm (m.map Edge.source))
    (htargets : (l.map Edge.target).Perm (m.map Edge.target)) : l.Perm m := by
  induction hn : l.length generalizing l m with
  | zero =>
      obtain rfl := List.eq_nil_of_length_eq_zero hn
      rw [List.map_nil, List.nil_perm, List.map_eq_nil_iff] at hsources
      rw [hsources]
  | succ n ih =>
      obtain ⟨s, t, hs, hfirst, ht, hle, hlast⟩ := hl.exists_innermost (by rintro rfl; cases hn)
      have hmem := hl.mem_innermost hs hfirst ht hle hlast
      have hmem' := hm.mem_innermost (hsources.mem_iff.mp hs)
        (fun i hi => hfirst i (hsources.mem_iff.mpr hi)) (htargets.mem_iff.mp ht) hle
        (fun i hi => hlast i (htargets.mem_iff.mpr hi))
      have hl' := List.perm_cons_erase hmem
      have hm' := List.perm_cons_erase hmem'
      have hrest := ih (hl.of_subset fun e => List.mem_of_mem_erase)
        (hm.of_subset fun e => List.mem_of_mem_erase)
        (((hl'.map _).symm.trans hsources).trans (hm'.map _)).cons_inv
        (((hl'.map _).symm.trans htargets).trans (hm'.map _)).cons_inv
        (by rw [List.length_erase_of_mem hmem, hn]; rfl)
      exact hl'.trans ((hrest.cons _).trans hm'.symm)

end Nested

/-! ### The loops of a walk -/

namespace Walk

variable {g : Graph} {w w' : Walk} {n : Node} {ns : List Node} {bound : ℕ}

theorem loops_visit (h : w.visit g n = some w') {e : Edge} (he : e ∈ w'.loops) :
    e ∈ w.loops ∨ ∃ header ∈ (w.headersAt g n).take (g.loopsClosed n.id), e = ⟨n.id, header⟩ := by
  rw [(visit_spec h).2.1.mem_iff, List.mem_append, List.mem_map] at he
  rcases he with ⟨header, hheader, rfl⟩ | he
  · exact Or.inr ⟨header, hheader, rfl⟩
  · exact Or.inl he

/-- All that has happened is below a bound, inner loops were opened behind outer ones, the loops are
nested, and no open loop was opened within a closed one. -/
structure Tidy (w : Walk) (bound : ℕ) : Prop where
  sorted : w.headers.Pairwise (· ≥ ·)
  headers_lt : ∀ header ∈ w.headers, header < bound
  sources_lt : ∀ e ∈ w.loops, e.source < bound
  nested : Nested w.loops
  clear : ∀ e ∈ w.loops, ∀ header ∈ w.headers, e.target < header → e.source < header

theorem tidy_start : start.Tidy 0 :=
  ⟨List.Pairwise.nil, fun _ h => absurd h List.not_mem_nil, fun _ h => absurd h List.not_mem_nil,
    ⟨fun _ h => absurd h List.not_mem_nil, fun _ h => absurd h List.not_mem_nil⟩,
    fun _ h => absurd h List.not_mem_nil⟩

theorem Tidy.sorted_headersAt (hw : w.Tidy bound) (hn : bound ≤ n.id) :
    (w.headersAt g n).Pairwise (· ≥ ·) := by
  refine List.pairwise_append.mpr ⟨List.pairwise_replicate.mpr (Or.inr (Nat.le_refl _)), hw.sorted, ?_⟩
  intro i hi j hj
  have hlt := hw.headers_lt j hj
  rw [List.eq_of_mem_replicate hi]
  omega

theorem mem_headersAt {header : ℕ} (h : header ∈ w.headersAt g n) :
    header = n.id ∨ header ∈ w.headers := by
  rcases List.mem_append.mp h with h | h
  · exact Or.inl (List.eq_of_mem_replicate h)
  · exact Or.inr h

/-- No loop that is open at a node was opened within one that was closed before. -/
theorem Tidy.clear_headersAt (hw : w.Tidy bound) (hn : bound ≤ n.id) {e : Edge} (he : e ∈ w.loops)
    {header : ℕ} (hheader : header ∈ w.headersAt g n) (hlt : e.target < header) :
    e.source < header := by
  rcases mem_headersAt hheader with rfl | hheader
  · have := hw.sources_lt e he
    omega
  · exact hw.clear e he header hheader hlt

theorem Tidy.visit (hw : w.Tidy bound) (hn : bound ≤ n.id) (h : w.visit g n = some w') :
    w'.Tidy (n.id + 1) := by
  have hsorted := hw.sorted_headersAt (g := g) hn
  have hheaders := (visit_spec h).1
  have hbelow : ∀ header ∈ w.headersAt g n, header ≤ n.id := by
    intro header hheader
    rcases mem_headersAt hheader with rfl | hheader
    · exact Nat.le_refl _
    · exact (hw.headers_lt header hheader).le.trans hn
  -- what is closed was opened behind what stays open
  have hinner : ∀ i ∈ (w.headersAt g n).take (g.loopsClosed n.id),
      ∀ j ∈ (w.headersAt g n).drop (g.loopsClosed n.id), j ≤ i := by
    rw [← List.take_append_drop (g.loopsClosed n.id) (w.headersAt g n), List.pairwise_append] at hsorted
    exact hsorted.2.2
  refine ⟨?_, ?_, ?_, ⟨?_, ?_⟩, ?_⟩
  · rw [hheaders]
    exact hsorted.sublist (List.drop_sublist _ _)
  · intro header hheader
    rw [hheaders] at hheader
    exact Nat.lt_succ_of_le (hbelow header (List.mem_of_mem_drop hheader))
  · intro e he
    rcases loops_visit h he with he | ⟨header, _, rfl⟩
    · have := hw.sources_lt e he
      omega
    · exact Nat.lt_succ_self _
  · intro e he
    rcases loops_visit h he with he | ⟨header, hheader, rfl⟩
    · exact hw.nested.back e he
    · exact hbelow header (List.mem_of_mem_take hheader)
  · intro e he f hf hlt hle
    rcases loops_visit h hf with hf | ⟨header, hheader, rfl⟩
    · rcases loops_visit h he with he | ⟨_, _, rfl⟩
      · exact hw.nested.apart e he f hf hlt hle
      · exact (hw.sources_lt f hf).le.trans hn
    · rcases loops_visit h he with he | ⟨_, _, rfl⟩
      · have hclear := hw.clear_headersAt hn he (List.mem_of_mem_take hheader) hlt
        exact absurd hle (Nat.not_le.mpr hclear)
      · exact Nat.le_refl _
  · intro e he header hheader hlt
    rw [hheaders] at hheader
    rcases loops_visit h he with he | ⟨closed, hclosed, rfl⟩
    · exact hw.clear_headersAt hn he (List.mem_of_mem_drop hheader) hlt
    · have hle := hinner closed hclosed header hheader
      exact absurd hlt (Nat.not_lt.mpr hle)

theorem Tidy.visitAll (hw : w.Tidy bound) (hns : (ns.map Node.id).Pairwise (· < ·))
    (hbound : ∀ n ∈ ns, bound ≤ n.id) (h : w.visitAll g ns = some w') : ∃ b, w'.Tidy b := by
  induction ns generalizing w bound with
  | nil =>
      obtain rfl := Option.some.inj h
      exact ⟨bound, hw⟩
  | cons n rest ih =>
      obtain ⟨v, hv, hrest⟩ := Option.bind_eq_some_iff.mp h
      rw [List.map_cons, List.pairwise_cons] at hns
      exact ih (hw.visit (hbound n List.mem_cons_self) hv) hns.2
        (fun m hm => hns.1 m.id (List.mem_map_of_mem hm)) hrest

theorem sources_visitAll (h : w.visitAll g ns = some w') :
    (w'.loops.map Edge.source).Perm
      (ns.flatMap (fun n => List.replicate (g.loopsClosed n.id) n.id) ++ w.loops.map Edge.source) := by
  induction ns generalizing w with
  | nil =>
      obtain rfl := Option.some.inj h
      rfl
  | cons n rest ih =>
      obtain ⟨v, hv, hrest⟩ := Option.bind_eq_some_iff.mp h
      have hcount : g.loopsClosed n.id ≤ (w.headersAt g n).length := by
        have := isSome_visit_iff.mp (hv ▸ rfl : (w.visit g n).isSome)
        simpa [headersAt] using this
      have hfirst := (visit_spec hv).2.1.map Edge.source
      rw [List.map_append, List.map_map] at hfirst
      have hclosed : ((w.headersAt g n).take (g.loopsClosed n.id)).map
          (Edge.source ∘ fun header => ⟨n.id, header⟩) = List.replicate (g.loopsClosed n.id) n.id := by
        rw [show (Edge.source ∘ fun header => Edge.mk n.id header) = Function.const ℕ n.id from rfl,
          List.map_const, List.length_take, Nat.min_eq_left hcount]
      rw [hclosed] at hfirst
      refine (ih hrest).trans ((hfirst.append_left _).trans ?_)
      rw [List.flatMap_cons, List.append_assoc]
      exact List.perm_append_comm_assoc _ _ _

theorem targets_visitAll (h : w.visitAll g ns = some w') :
    (w'.headers ++ w'.loops.map Edge.target).Perm
      (ns.flatMap (fun n => List.replicate (g.loopsOpened n.id) n.id) ++
        (w.headers ++ w.loops.map Edge.target)) := by
  induction ns generalizing w with
  | nil =>
      obtain rfl := Option.some.inj h
      rfl
  | cons n rest ih =>
      obtain ⟨v, hv, hrest⟩ := Option.bind_eq_some_iff.mp h
      obtain ⟨hheaders, hloops, _⟩ := visit_spec hv
      have hfirst : (v.headers ++ v.loops.map Edge.target).Perm
          (w.headersAt g n ++ w.loops.map Edge.target) := by
        have htargets := (hloops.map Edge.target).append_left v.headers
        rw [List.map_append, List.map_map,
          show (Edge.target ∘ fun header => Edge.mk n.id header) = id from rfl, List.map_id,
          ← List.append_assoc] at htargets
        refine htargets.trans (List.Perm.append_right _ ?_)
        rw [hheaders]
        refine List.perm_append_comm.trans ?_
        rw [List.take_append_drop]
      refine (ih hrest).trans ((hfirst.append_left _).trans ?_)
      rw [List.flatMap_cons, headersAt, List.append_assoc, List.append_assoc]
      exact List.perm_append_comm_assoc _ _ _

end Walk

/-! ### The loops of a graph -/

theorem count_flatMap_replicate (f : ℕ → ℕ) {l : List ℕ} (hl : l.Nodup) (i : ℕ) :
    (l.flatMap (fun j => List.replicate (f j) j)).count i = if i ∈ l then f i else 0 := by
  induction l with
  | nil => rfl
  | cons j l ih =>
      obtain ⟨hj, hl⟩ := List.nodup_cons.mp hl
      rw [List.flatMap_cons, List.count_append, ih hl, List.count_replicate]
      by_cases hij : i = j
      · subst hij
        simp [hj]
      · simp [hij, Ne.symm hij]

/-- Numbers of a list, each as often as it occurs. -/
theorem perm_flatMap_replicate {l m : List ℕ} {f : ℕ → ℕ} (hl : l.Nodup) (hm : ∀ i ∈ m, i ∈ l)
    (hf : ∀ i ∈ l, f i = m.count i) : (l.flatMap (fun j => List.replicate (f j) j)).Perm m := by
  rw [List.perm_iff_count]
  intro i
  rw [count_flatMap_replicate f hl]
  split_ifs with hi
  · exact hf i hi
  · exact (List.count_eq_zero.mpr (fun h => hi (hm i h))).symm

namespace Graph

variable {g : Graph} {points : Set ℕ} {o : Outline}

theorem outline_sources (hg : g.Represented points) (ho : g.outline = some o) :
    (o.loops.map Edge.source).Perm (g.jumps.map Edge.source) := by
  have hwalk := Walk.sources_visitAll (outline_eq_some_iff.mp ho)
  simp only [Walk.loops, Walk.start, List.flatMap_nil, List.nil_append, Outline.loops, List.map_nil,
    List.append_nil] at hwalk
  refine hwalk.trans ?_
  have hids := perm_flatMap_replicate (f := g.loopsClosed) (m := g.jumps.map Edge.source)
    hg.threaded.numbered.nodup
    (fun i hi => by
      obtain ⟨e, he, rfl⟩ := List.mem_map.mp hi
      exact (hg.mem_jumps_ids he).1)
    (fun i hi => by rw [hg.loopsClosed hi, List.count, List.countP_map]; rfl)
  rwa [ids, List.flatMap_map] at hids

theorem outline_targets (hg : g.Represented points) (ho : g.outline = some o) :
    (o.loops.map Edge.target).Perm (g.jumps.map Edge.target) := by
  have hwalk := Walk.targets_visitAll (outline_eq_some_iff.mp ho)
  simp only [Walk.headers, Walk.loops, Walk.start, List.flatMap_nil, List.nil_append, Outline.loops,
    List.map_nil, List.append_nil] at hwalk
  refine hwalk.trans ?_
  have hids := perm_flatMap_replicate (f := g.loopsOpened) (m := g.jumps.map Edge.target)
    hg.threaded.numbered.nodup
    (fun i hi => by
      obtain ⟨e, he, rfl⟩ := List.mem_map.mp hi
      exact (hg.mem_jumps_ids he).2)
    (fun i hi => by rw [hg.loopsOpened hi, List.count, List.countP_map]; rfl)
  rwa [ids, List.flatMap_map] at hids

theorem outline_nested (hg : g.Represented points) (ho : g.outline = some o) : Nested o.loops := by
  obtain ⟨_, htidy⟩ := Walk.tidy_start.visitAll hg.threaded.numbered.increasing
    (fun n _ => Nat.zero_le n.id) (outline_eq_some_iff.mp ho)
  exact htidy.nested

/-- **The loops of a plan and the jumps of its graph.**  The loops have the sources and the targets of
the jumps and are nested.  They are the jumps exactly if the jumps are nested, and a graph with nested
jumps has a plan.  A graph without a plan has a node that ends a loop that was never opened. -/
theorem loops_perm_jumps_iff_nested (hg : g.Built) :
    (∀ p, g.toPlan.value = .ok p → ∃ o, g.outline = some o ∧ p = .nary {} .sequence o.plans ∧
        (o.loops.map Edge.source).Perm (g.jumps.map Edge.source) ∧
        (o.loops.map Edge.target).Perm (g.jumps.map Edge.target) ∧ Nested o.loops ∧
        (o.loops.Perm g.jumps ↔ Nested g.jumps)) ∧
      (Nested g.jumps → ∃ p, g.toPlan.value = .ok p) ∧
      ∀ e, g.toPlan.value = .error e → ∃ i ∈ g.ids, e = .unbalancedLoops (.neverOpened i) := by
  obtain ⟨points, hrep⟩ := hg.represented
  refine ⟨fun p hp => ?_, fun hn => ?_, fun e => hrep.toPlan_eq_error⟩
  · obtain ⟨o, ho, rfl⟩ := toPlan_eq_ok_iff.mp hp
    have hsources := outline_sources hrep ho
    have htargets := outline_targets hrep ho
    have hnested := outline_nested hrep ho
    refine ⟨o, ho, rfl, hsources, htargets, hnested, fun hperm => ?_, fun hn => ?_⟩
    · exact hnested.of_subset (fun e he => hperm.mem_iff.mpr he)
    · exact hnested.perm hn hsources htargets
  · exact hrep.exists_toPlan_iff.mpr (hrep.balanced_of_back hn.back)

theorem loops_perm_jumps_iff_nested_doubled : doubled.Built ∧ Nested doubled.jumps ∧
    ∃ p o, doubled.toPlan.value = .ok p ∧ doubled.outline = some o ∧
      p = .nary {} .sequence o.plans ∧ o.loops.Perm [⟨2, 0⟩, ⟨2, 1⟩] := by
  have hnested : Nested doubled.jumps := ⟨by decide, by decide⟩
  obtain ⟨hloops, hplan, _⟩ := loops_perm_jumps_iff_nested built_doubled
  obtain ⟨p, hp⟩ := hplan hnested
  obtain ⟨o, ho, rfl, _, _, _, hperm⟩ := hloops p hp
  exact ⟨built_doubled, hnested, _, o, hp, ho, rfl, hperm.mpr hnested⟩

/-- The third of four nodes leads back to the first one, the fourth one to the second one. -/
def crossed : Graph := { line 4 with edges := ((line 4).edges.insert ⟨2, 0⟩).insert ⟨3, 1⟩ }

theorem built_crossed : crossed.Built :=
  ((built_line 4).connect (connect_of_mem (s := 2) (t := 0) (by decide) (by decide))).connect
    (connect_of_mem (s := 3) (t := 1) (by decide) (by decide))

/-- Jumps that cross are not refused: the graph has a plan with other loops. -/
theorem crossed_has_other_loops : crossed.Built ∧ crossed.jumps = [⟨2, 0⟩, ⟨3, 1⟩] ∧
    ∃ p o, crossed.toPlan.value = .ok p ∧ crossed.outline = some o ∧
      p = .nary {} .sequence o.plans ∧ o.loops = [⟨3, 0⟩, ⟨2, 1⟩] ∧ ¬ o.loops.Perm crossed.jumps := by
  have houtline : ∃ o, crossed.outline = some o ∧ o.loops = [⟨3, 0⟩, ⟨2, 1⟩] := ⟨_, rfl, rfl⟩
  obtain ⟨o, ho, hloops⟩ := houtline
  refine ⟨built_crossed, by decide, _, o, toPlan_of_outline ho, ho, rfl, hloops, ?_⟩
  rw [hloops]
  decide

end Graph

end Planner.Flow
