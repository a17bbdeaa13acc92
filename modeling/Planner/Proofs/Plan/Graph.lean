import Planner.Plan.Graph
import Planner.Proofs.Plan.Reads

/-! # The graph of a plan is its tree

`Plan.places` lists the places of a plan, each before those below it; these are the paths that lead to
a node, in lexicographic order (`mem_places_iff`, `pairwise_places`).  The stack of visits stands for
the places that are still to come (`pending`), and at any time the places that were met and these are
the places of the plan (`Underway.order`).  No place comes twice, so none is found among those that were
met, and each visit makes one node and, but for the root, one edge to the parent (`Underway.step`).

Main statement: `ofPlan_draws_tree`. -/

namespace Planner

namespace Plan

variable {p q : Plan} {path place : List ℕ} {i : ℕ}

/-! ### Places -/

/-- The places of a plan, each before the places below it. -/
def places (p : Plan) : List (List ℕ) :=
  p.fold (fun _ inputs => [] :: inputs.zipIdx.flatMap (fun below => below.1.map (below.2 :: ·)))

theorem places_eq (p : Plan) :
    p.places = [] :: p.inputs.zipIdx.flatMap (fun input => input.1.places.map (input.2 :: ·)) := by
  rw [places, fold_eq, List.zipIdx_map, List.flatMap_map]
  rfl

theorem at?_append (path more : List ℕ) (p : Plan) :
    p.at? (path ++ more) = (p.at? path).bind (at? more) := by
  induction path generalizing p with
  | nil => rfl
  | cons i path ih =>
      rw [List.cons_append, at?, at?, Option.bind_assoc]
      exact congrArg _ (funext ih)

/-- The places are the paths that lead to a node. -/
theorem mem_places_iff : path ∈ p.places ↔ (p.at? path).isSome = true := by
  induction p using induction_inputs generalizing path with
  | step p ih =>
      rw [places_eq, List.mem_cons, List.mem_flatMap]
      cases path with
      | nil => simp [at?]
      | cons i path =>
          simp only [reduceCtorEq, false_or, at?]
          constructor
          · rintro ⟨⟨q, j⟩, hq, hpath⟩
            rw [List.mem_zipIdx_iff_getElem?] at hq
            obtain ⟨below, hbelow, hcons⟩ := List.mem_map.mp hpath
            obtain ⟨rfl, rfl⟩ := List.cons.inj hcons
            rw [hq]
            exact (ih q (List.mem_of_getElem? hq)).mp hbelow
          · intro h
            obtain ⟨d, hd⟩ := Option.isSome_iff_exists.mp h
            obtain ⟨q, hq, hpath⟩ := Option.bind_eq_some_iff.mp hd
            refine ⟨(q, i), List.mem_zipIdx_iff_getElem?.mpr hq, List.mem_map_of_mem ?_⟩
            exact (ih q (List.mem_of_getElem? hq)).mpr (by rw [hpath]; rfl)

theorem pairwise_places (p : Plan) : p.places.Pairwise (· < ·) := by
  induction p using induction_inputs with
  | step p ih =>
      rw [places_eq, List.pairwise_cons, List.pairwise_flatMap]
      refine ⟨fun path hpath => ?_, fun input hinput => ?_, ?_⟩
      · obtain ⟨input, _, hpath⟩ := List.mem_flatMap.mp hpath
        obtain ⟨below, _, rfl⟩ := List.mem_map.mp hpath
        exact List.nil_lt_cons _ _
      · have hmem : input.1 ∈ p.inputs := List.mem_of_getElem? (List.mem_zipIdx_iff_getElem?.mp hinput)
        exact (ih input.1 hmem).map _ (fun a b hab => List.cons_lt_cons_self.mpr hab)
      · -- Below different inputs the first numbers decide.
        have hnumbers : p.inputs.zipIdx.Pairwise (fun a b => a.2 < b.2) := by
          rw [← List.pairwise_map (f := Prod.snd) (R := (· < ·)), List.zipIdx_map_snd]
          exact List.pairwise_lt_range'
        refine hnumbers.imp (fun hlt path hpath path' hpath' => ?_)
        obtain ⟨_, _, rfl⟩ := List.mem_map.mp hpath
        obtain ⟨_, _, rfl⟩ := List.mem_map.mp hpath'
        exact List.cons_lt_cons_iff.mpr (Or.inl hlt)

theorem nodup_places (p : Plan) : p.places.Nodup := by
  refine p.pairwise_places.imp ?_
  rintro path _ hlt rfl
  exact List.lt_irrefl path hlt

/-- What stands at the places below the root, if `below` gives the places of each input and `nodes`
what stands there. -/
theorem map_at?_below {below : Plan → List (List ℕ)} {nodes : Plan → List Plan}
    (h : ∀ q ∈ p.inputs, (below q).map (fun path => q.at? path) = (nodes q).map some) :
    (p.inputs.zipIdx.flatMap (fun input => (below input.1).map (input.2 :: ·))).map
      (fun path => p.at? path) = (p.inputs.flatMap nodes).map some := by
  have hinputs : ∀ input ∈ p.inputs.zipIdx,
      ((below input.1).map (input.2 :: ·)).map (fun path => p.at? path) =
        (nodes input.1).map some := by
    intro input hinput
    have hget := List.mem_zipIdx_iff_getElem?.mp hinput
    rw [← h input.1 (List.mem_of_getElem? hget), List.map_map]
    refine List.map_congr_left (fun path _ => ?_)
    simp [at?, hget]
  have hfst : p.inputs.zipIdx.flatMap (fun input => nodes input.1) = p.inputs.flatMap nodes := by
    conv_rhs => rw [← List.zipIdx_map_fst 0 p.inputs, List.flatMap_map]
  rw [List.map_flatMap, List.flatMap_congr hinputs, ← hfst, List.map_flatMap]

theorem map_at?_places (p : Plan) : p.places.map (fun path => p.at? path) = p.preorder.map some := by
  induction p using induction_inputs with
  | step p ih =>
      rw [places_eq, preorder_eq, List.map_cons, List.map_cons, map_at?_below ih]
      rfl

end Plan

namespace PlanGraph

variable {p : Plan} {graph : PlanGraph} {seen : List (List ℕ × ℕ)} {visit : Visit}
  {stack rest : List Visit}

/-! ### Visits to come -/

/-- The places that the visits on a stack lead to. -/
def pending (stack : List Visit) : List (List ℕ) :=
  stack.flatMap (fun visit => visit.plan.places.map (visit.place ++ ·))

theorem pending_append (stack more : List Visit) :
    pending (stack ++ more) = pending stack ++ pending more := List.flatMap_append

theorem mem_inputs {number : ℕ} {below : Visit} : below ∈ visit.inputs number ↔
    ∃ i q, visit.plan.inputs[i]? = some q ∧ below = ⟨visit.place ++ [i], q, some number⟩ := by
  rw [Visit.inputs, List.mem_mapIdx]
  constructor
  · rintro ⟨i, hi, rfl⟩
    exact ⟨i, _, List.getElem?_eq_getElem hi, rfl⟩
  · rintro ⟨i, q, hq, rfl⟩
    obtain ⟨hi, rfl⟩ := List.getElem?_eq_some_iff.mp hq
    exact ⟨i, hi, rfl⟩

theorem pending_cons (visit : Visit) (rest : List Visit) (number : ℕ) :
    pending (visit :: rest) = visit.place :: pending (visit.inputs number ++ rest) := by
  have hinputs : pending (visit.inputs number) = (visit.plan.inputs.zipIdx.flatMap
      (fun input => input.1.places.map (input.2 :: ·))).map (visit.place ++ ·) := by
    rw [pending, Visit.inputs, List.mapIdx_eq_zipIdx_map, List.flatMap_map, List.map_flatMap]
    simp [Function.comp_def]
  rw [pending_append, hinputs, pending, List.flatMap_cons, Plan.places_eq, List.map_cons,
    List.append_nil]
  rfl

/-- The parent at a number is the one that the last step to a place starts from; the root has none. -/
def Attached (p : Plan) (place : List ℕ) : Option ℕ → Prop
  | none => place = []
  | some number => ∃ above i, place = above ++ [i] ∧ p.places[number]? = some above

/-- How far the visits have got: what was met, what is still to come, and the graph of the first. -/
structure Underway (p : Plan) (graph : PlanGraph) (seen : List (List ℕ × ℕ)) (stack : List Visit) :
    Prop where
  /-- The places that were met and those to come are the places of the plan, in order. -/
  order : (seen.map Prod.fst).reverse ++ pending stack = p.places
  nodes : graph.nodes.map some = (seen.map Prod.fst).reverse.map (fun path => p.at? path)
  plans : ∀ visit ∈ stack, p.at? visit.place = some visit.plan
  parents : ∀ visit ∈ stack, Attached p visit.place visit.parent
  /-- Each node but the first has an edge, in the order of the nodes. -/
  sources : graph.edges.map Prod.fst = List.range' 1 (graph.nodes.length - 1)
  targets : ∀ edge ∈ graph.edges, ∃ place, p.places[edge.1]? = some place ∧
    Attached p place (some edge.2)

namespace Underway

theorem start (p : Plan) : Underway p ⟨[], []⟩ [] [⟨[], p, none⟩] where
  order := by simp [pending]
  nodes := rfl
  plans visit hvisit := by
    obtain rfl := List.mem_singleton.mp hvisit
    rfl
  parents visit hvisit := by
    obtain rfl := List.mem_singleton.mp hvisit
    rfl
  sources := rfl
  targets edge hedge := by cases hedge

theorem length_seen (h : Underway p graph seen stack) : seen.length = graph.nodes.length := by
  have hlen := congrArg List.length h.nodes
  simpa using hlen.symm

section Visit

variable (h : Underway p graph seen (visit :: rest))

include h

theorem getElem?_places : p.places[graph.nodes.length]? = some visit.place := by
  have hlen : (seen.map Prod.fst).reverse.length = graph.nodes.length := by
    rw [List.length_reverse, List.length_map, h.length_seen]
  rw [← h.order, pending_cons visit rest 0, List.getElem?_append_right (Nat.le_of_eq hlen), hlen,
    Nat.sub_self]
  rfl

theorem lookup_eq_none : seen.lookup visit.place = none := by
  have hnodup := p.nodup_places
  rw [← h.order, pending_cons visit rest 0] at hnodup
  rw [List.lookup_eq_none_iff]
  intro entry hentry
  have hmem : entry.1 ∈ (seen.map Prod.fst).reverse :=
    List.mem_reverse.mpr (List.mem_map_of_mem hentry)
  have hne := (List.nodup_append.mp hnodup).2.2 entry.1 hmem visit.place List.mem_cons_self
  simpa using Ne.symm hne

theorem eq_zero_iff : graph.nodes.length = 0 ↔ visit.parent = none := by
  have hnext := h.getElem?_places
  have hroot : p.places[0]? = some [] := by
    rw [Plan.places_eq]
    rfl
  have hattached := h.parents visit List.mem_cons_self
  constructor
  · intro hzero
    rw [hzero, hroot] at hnext
    obtain hplace := Option.some.inj hnext
    cases hparent : visit.parent with
    | none => rfl
    | some number =>
        rw [hparent, ← hplace] at hattached
        obtain ⟨above, i, heq, _⟩ := hattached
        simp at heq
  · intro hparent
    rw [hparent] at hattached
    rw [show visit.place = [] from hattached, ← hroot] at hnext
    have hlt : 0 < p.places.length := by
      rw [Plan.places_eq]
      exact Nat.succ_pos _
    exact ((List.getElem?_inj hlt p.nodup_places).mp hnext.symm).symm

theorem not_mem_edges (number : ℕ) : (graph.nodes.length, number) ∉ graph.edges := by
  intro hmem
  have hsource : graph.nodes.length ∈ graph.edges.map Prod.fst :=
    List.mem_map_of_mem (f := Prod.fst) hmem
  rw [h.sources, List.mem_range'_1] at hsource
  omega

/-- What one visit does: it makes a node, and for all but the root an edge. -/
theorem step : Underway p
    (({ graph with nodes := graph.nodes ++ [visit.plan] } : PlanGraph).link graph.nodes.length
      visit.parent)
    ((visit.place, graph.nodes.length) :: seen) (visit.inputs graph.nodes.length ++ rest) := by
  have hplan := h.plans visit List.mem_cons_self
  have hattached := h.parents visit List.mem_cons_self
  have hnext := h.getElem?_places
  have hzero := h.eq_zero_iff
  have horder := h.order
  rw [pending_cons visit rest graph.nodes.length] at horder
  have hnodes : (graph.nodes ++ [visit.plan]).map some =
      ((visit.place :: seen.map Prod.fst).reverse).map (fun path => p.at? path) := by
    rw [List.reverse_cons, List.map_append, List.map_append, h.nodes]
    simp [hplan]
  have hvisits : ∀ below ∈ visit.inputs graph.nodes.length ++ rest,
      p.at? below.place = some below.plan ∧ Attached p below.place below.parent := by
    intro below hbelow
    rcases List.mem_append.mp hbelow with hbelow | hbelow
    · obtain ⟨i, q, hq, rfl⟩ := mem_inputs.mp hbelow
      refine ⟨?_, visit.place, i, rfl, hnext⟩
      rw [Plan.at?_append, hplan]
      simp [Plan.at?, hq]
    · exact ⟨h.plans below (List.mem_cons_of_mem _ hbelow), h.parents below (List.mem_cons_of_mem _ hbelow)⟩
  cases hparent : visit.parent with
  | none =>
      refine ⟨by simpa using horder, hnodes, fun v hv => (hvisits v hv).1, fun v hv => (hvisits v hv).2,
        ?_, h.targets⟩
      have hlen := hzero.mpr hparent
      change graph.edges.map Prod.fst = List.range' 1 ((graph.nodes ++ [visit.plan]).length - 1)
      rw [h.sources, List.length_append, hlen]
      rfl
  | some number =>
      have hpos : graph.nodes.length ≠ 0 := by
        rw [Ne, hzero, hparent]
        simp
      have hfresh : graph.edges.contains (graph.nodes.length, number) = false := by
        simpa using h.not_mem_edges number
      rw [hparent] at hattached
      simp only [link, hfresh, Bool.false_eq_true, if_false]
      refine ⟨by simpa using horder, hnodes, fun v hv => (hvisits v hv).1, fun v hv => (hvisits v hv).2,
        ?_, ?_⟩
      · rw [List.map_append, h.sources, List.length_append]
        obtain ⟨k, hk⟩ : ∃ k, graph.nodes.length = k + 1 := ⟨graph.nodes.length - 1, by omega⟩
        simp [hk, List.range'_concat, Nat.add_comm]
      · intro edge hedge
        rcases List.mem_append.mp hedge with hedge | hedge
        · exact h.targets edge hedge
        · obtain rfl := List.mem_singleton.mp hedge
          exact ⟨visit.place, hnext, hattached⟩

end Visit

theorem collect (h : Underway p graph seen stack) :
    ∃ all, Underway p (graph.collect seen stack) all [] := by
  fun_induction PlanGraph.collect graph seen stack with
  | case1 graph seen => exact ⟨seen, h⟩
  | case2 graph seen visit rest number hseen ih =>
      rw [h.lookup_eq_none] at hseen
      cases hseen
  | case3 graph seen visit rest hseen number grown ih => exact ih h.step

end Underway

/-- **The graph of a plan is its tree.**  Its nodes are those of the plan in preorder, one for each
place: the places are all paths that lead to a node, in order, and the node with a number is the one
that stands at the place with that number.  Each node but the root has one edge, in the order of the
nodes, and it leads to the node from whose place the last step is made.  So there is one edge less than
there are nodes, also where subplans are equal. -/
theorem ofPlan_draws_tree (p : Plan) :
    (ofPlan p).nodes = p.preorder ∧
      (p.places.Pairwise (· < ·) ∧ ∀ path, path ∈ p.places ↔ (p.at? path).isSome = true) ∧
      (ofPlan p).nodes.map some = p.places.map (fun path => p.at? path) ∧
      (ofPlan p).edges.map Prod.fst = List.range' 1 ((ofPlan p).nodes.length - 1) ∧
      (∀ edge ∈ (ofPlan p).edges, ∃ above i,
        p.places[edge.1]? = some (above ++ [i]) ∧ p.places[edge.2]? = some above) ∧
      (ofPlan p).edges.length + 1 = (ofPlan p).nodes.length := by
  obtain ⟨all, h⟩ := (Underway.start p).collect
  have hall : (all.map Prod.fst).reverse = p.places := by
    rw [← h.order]
    exact (List.append_nil _).symm
  have hnodes : (ofPlan p).nodes.map some = p.places.map (fun path => p.at? path) := by
    rw [← hall]
    exact h.nodes
  have hpreorder : (ofPlan p).nodes = p.preorder := by
    rw [p.map_at?_places] at hnodes
    exact (List.map_inj_right fun _ _ => Option.some.inj).mp hnodes
  refine ⟨hpreorder, ⟨p.pairwise_places, fun path => Plan.mem_places_iff⟩, hnodes, h.sources, ?_, ?_⟩
  · intro edge hedge
    obtain ⟨place, hplace, above, i, rfl, habove⟩ := h.targets edge hedge
    exact ⟨above, i, hplace, habove⟩
  · have hlen := congrArg List.length h.sources
    have hpos : 0 < (ofPlan p).nodes.length := by
      rw [hpreorder, Plan.preorder_eq]
      exact Nat.succ_pos _
    rw [List.length_map, List.length_range'] at hlen
    change (ofPlan p).edges.length = (ofPlan p).nodes.length - 1 at hlen
    omega

/-- The inputs are equal and stay two nodes. -/
theorem ofPlan_draws_tree_twins :
    let p : Plan := .binary {} .union (.leaf {} .singleton) (.leaf {} .singleton)
    (ofPlan p).edges = [(1, 0), (2, 0)] ∧
      (∃ above i, p.places[2]? = some (above ++ [i]) ∧ p.places[0]? = some above) ∧
      (ofPlan p).edges.length + 1 = (ofPlan p).nodes.length := by
  intro p
  have hedges : (ofPlan p).edges = [(1, 0), (2, 0)] := by
    simp [p, ofPlan, PlanGraph.collect, Visit.inputs, Plan.inputs, link, List.lookup_cons]
  have hmem : (2, 0) ∈ (ofPlan p).edges := by simp [hedges]
  obtain ⟨_, _, _, _, hparents, hcount⟩ := ofPlan_draws_tree p
  exact ⟨hedges, hparents (2, 0) hmem, hcount⟩

end PlanGraph

end Planner
