import Mathlib.Data.List.Perm.Basic
import Planner.Proofs.Plan.Graph
import Planner.Proofs.Plan.Traversal

/-! # Walks and the recursion over plans

`topDown` and `bottomUp` list the nodes of a plan by recursion, each before or after its inputs.  A walk
has no recursion, only a stack.  What it has still to meet can be read off the stack, entry by entry:
each step takes the first node of this list or leaves the list as it is, and a list that agrees with the
steps in this way is the list that the walk gives (`Walk.Foretells.toList_eq`).

No node is met twice and none is left out.  A node is known by its place: `places` and `placesUp` have
the same places, each once, and what the walks meet is what stands there (`MeetsOnce`).

Main statement: `walks_follow_recursion`. -/

namespace Planner.Plan

open Std

variable {p : Plan}

/-! ### Listing by recursion -/

/-- The nodes of a plan, each before its inputs. -/
def topDown (p : Plan) : List Plan := p.fold (fun node below => node :: below.flatten)

/-- The nodes of a plan, each after its inputs. -/
def bottomUp (p : Plan) : List Plan := p.fold (fun node below => below.flatten ++ [node])

theorem topDown_eq (p : Plan) : p.topDown = p :: p.inputs.flatMap topDown := by
  rw [topDown, fold_eq, List.flatMap_def]
  rfl

theorem bottomUp_eq (p : Plan) : p.bottomUp = p.inputs.flatMap bottomUp ++ [p] := by
  rw [bottomUp, fold_eq, List.flatMap_def]
  rfl

example :
    let p : Plan := .binary {} .crossProduct (.unary {} .distinct (.leaf {} .singleton))
      (.leaf {} (.emptyRelation ⟨[]⟩))
    p.topDown.map name = ["CrossProduct", "Distinct", "SingletonRelation", "EmptyRelation"] ∧
      p.bottomUp.map name = ["SingletonRelation", "Distinct", "EmptyRelation", "CrossProduct"] := by
  decide

theorem preorder_eq_topDown (p : Plan) : p.preorder = p.topDown := by
  induction p using induction_inputs with
  | step p ih => rw [preorder_eq, topDown_eq, List.flatMap_congr ih]

theorem postorder_eq_bottomUp (p : Plan) : p.postorder = p.bottomUp := by
  induction p using induction_inputs with
  | step p ih => rw [postorder_eq, bottomUp_eq, List.flatMap_congr ih]

/-! ### Runs of a walk -/

namespace Walk

variable {σ : Type} [Walk σ]

theorem val_step (walk : σ) :
    (⟨walk⟩ : Iter (α := σ) Plan).step.val = (step walk).mapIterator (⟨·⟩) := by
  rw [Iter.step_eq]
  simp only [Id.run_pure, Shrink.inflate_deflate, IterM.Step.toPure]
  exact IterStep.mapIterator_mapIterator

theorem toList_eq (walk : σ) : (⟨walk⟩ : Iter (α := σ) Plan).toList = match step walk with
    | .yield next p => p :: (⟨next⟩ : Iter (α := σ) Plan).toList
    | .skip next => (⟨next⟩ : Iter (α := σ) Plan).toList
    | .done => [] := by
  rw [Iter.toList_eq_match_step, val_step]
  cases step walk <;> rfl

/-- `toCome` lists what a walk has still to meet, as far as single steps show: a step that meets a node
takes it off the front, any other step leaves the list as it is, and at the end the list is empty. -/
def Foretells (toCome : σ → List Plan) : Prop :=
  ∀ walk, toCome walk = match step walk with
    | .yield next p => p :: toCome next
    | .skip next => toCome next
    | .done => []

/-- What single steps show is what the whole walk gives. -/
theorem Foretells.toList_eq {toCome : σ → List Plan} (h : Foretells toCome) (walk : σ) :
    (⟨walk⟩ : Iter (α := σ) Plan).toList = toCome walk := by
  induction hn : left walk using Nat.strongRecOn generalizing walk with
  | ind n ih =>
      subst hn
      have hnext : ∀ next, (step walk).successor = some next →
          (⟨next⟩ : Iter (α := σ) Plan).toList = toCome next :=
        fun next hsucc => ih (left next) (left_lt hsucc) next rfl
      rw [Walk.toList_eq, h walk]
      cases hstep : step walk with
      | yield next p => simp only [hnext next (by rw [hstep]; rfl)]
      | skip next => exact hnext next (by rw [hstep]; rfl)
      | done => rfl

end Walk

/-- What the stack of a walk leads to, each node before its inputs. -/
def PreorderWalk.toCome (walk : PreorderWalk) : List Plan := walk.stack.flatMap topDown

/-- What the stack of a walk leads to, each node after its inputs: below a plan that is open its inputs
were dealt with. -/
def PostorderWalk.toCome (walk : PostorderWalk) : List Plan :=
  walk.stack.flatMap (fun entry => if entry.2 then [entry.1] else entry.1.bottomUp)

theorem PreorderWalk.foretells_toCome : Walk.Foretells PreorderWalk.toCome := by
  rintro ⟨_ | ⟨p, rest⟩⟩
  · rfl
  · simp [toCome, Walk.step, topDown_eq p]

theorem PostorderWalk.foretells_toCome : Walk.Foretells PostorderWalk.toCome := by
  rintro ⟨_ | ⟨⟨p, _ | _⟩, rest⟩⟩
  · rfl
  · -- The inputs that go onto the stack and the plan below them lead to the same nodes.
    simp [toCome, Walk.step, bottomUp_eq p, List.flatMap_map]
  · simp [toCome, Walk.step]

theorem toList_preorderWalk (p : Plan) : p.preorderWalk.toList = p.topDown := by
  rw [preorderWalk, PreorderWalk.foretells_toCome.toList_eq]
  simp [PreorderWalk.toCome]

theorem toList_postorderWalk (p : Plan) : p.postorderWalk.toList = p.bottomUp := by
  rw [postorderWalk, PostorderWalk.foretells_toCome.toList_eq]
  simp [PostorderWalk.toCome]

/-- What a function finds on a walk is what it finds at the nodes that the walk gives, one node after
the other. -/
theorem Walk.toList_gather {σ : Type} [Walk σ] {m : Type → Type} [Monad m] [MonadAttach m]
    [LawfulMonad m] [WeaklyLawfulMonadAttach m] {β : Type} (f : Plan → m (List β))
    (walk : Iter (α := σ) Plan) :
    (gather f walk).ensureTermination.toList = List.flatten <$> walk.toList.mapM f := by
  rw [IterM.toList_ensureTermination, gather, Iter.toList_flatMapM, Iter.toList_mapM]
  simp

/-- Without effects it is the concatenation. -/
theorem Walk.toList_gather_id {σ : Type} [Walk σ] {β : Type} (f : Plan → List β)
    (walk : Iter (α := σ) Plan) :
    (gather (m := Id) f walk).ensureTermination.toList.run = walk.toList.flatMap f := by
  rw [Walk.toList_gather, List.flatMap_def, Id.run_map, List.idRun_mapM]
  rfl

/-! ### Each place once -/

/-- The places of a plan, each after the places below it. -/
def placesUp (p : Plan) : List (List ℕ) :=
  p.fold (fun _ inputs => inputs.zipIdx.flatMap (fun below => below.1.map (below.2 :: ·)) ++ [[]])

theorem placesUp_eq (p : Plan) : p.placesUp =
    p.inputs.zipIdx.flatMap (fun input => input.1.placesUp.map (input.2 :: ·)) ++ [[]] := by
  rw [placesUp, fold_eq, List.zipIdx_map, List.flatMap_map]
  rfl

theorem placesUp_perm_places (p : Plan) : p.placesUp.Perm p.places := by
  induction p using induction_inputs with
  | step p ih =>
      rw [placesUp_eq, places_eq]
      refine (List.perm_append_singleton _ _).trans (List.Perm.cons _ ?_)
      refine List.Perm.flatMap_left _ (fun input hinput => List.Perm.map _ ?_)
      exact ih input.1 (List.mem_of_getElem? (List.mem_zipIdx_iff_getElem?.mp hinput))

/-- What stands at the places, each after those below it, is what `bottomUp` lists. -/
theorem map_at?_placesUp (p : Plan) :
    p.placesUp.map (fun path => p.at? path) = p.bottomUp.map some := by
  induction p using induction_inputs with
  | step p ih =>
      rw [placesUp_eq, bottomUp_eq, List.map_append, List.map_append, map_at?_below ih]
      rfl

/-- A list of nodes has every node of a plan once: it is what stands at `places`, and these are the
paths that lead to a node, each once. -/
structure MeetsOnce (p : Plan) (nodes : List Plan) (places : List (List ℕ)) : Prop where
  nodup : places.Nodup
  mem_iff : ∀ path, path ∈ places ↔ (p.at? path).isSome = true
  nodes : nodes.map some = places.map (fun path => p.at? path)

theorem meetsOnce_topDown (p : Plan) : MeetsOnce p p.topDown p.places where
  nodup := p.nodup_places
  mem_iff _ := mem_places_iff
  nodes := by rw [map_at?_places, preorder_eq_topDown]

theorem meetsOnce_bottomUp (p : Plan) : MeetsOnce p p.bottomUp p.placesUp where
  nodup := p.placesUp_perm_places.nodup_iff.mpr p.nodup_places
  mem_iff _ := p.placesUp_perm_places.mem_iff.trans mem_places_iff
  nodes := p.map_at?_placesUp.symm

/-- Two lists that have every node of a plan once have the same nodes. -/
theorem MeetsOnce.perm {l m : List Plan} {places others : List (List ℕ)}
    (hl : MeetsOnce p l places) (hm : MeetsOnce p m others) : l.Perm m := by
  have hplaces : places.Perm others := by
    rw [List.perm_ext_iff_of_nodup hl.nodup hm.nodup]
    intro path
    rw [hl.mem_iff, hm.mem_iff]
  rw [← List.map_perm_map_iff (fun _ _ => Option.some.inj), hl.nodes, hm.nodes]
  exact hplaces.map _

/-! ### The walks -/

/-- **The walks with a stack are the recursive listings.**  Both kinds of walk end, whatever is on the
stack.  From a plan they meet the nodes that the recursion over its inputs lists, in the same order, and
so do the traversals that list them all at once.  Each node is met once, and the two orders are
permutations of each other.  What a function finds on a walk ends as well, as `ensureTermination` asks,
and is the concatenation of what it finds at the nodes in this order, also where it keeps a state from
node to node. -/
theorem walks_follow_recursion (p : Plan) :
    (Iterators.Finite PreorderWalk Id ∧ Iterators.Finite PostorderWalk Id) ∧
      (p.preorderWalk.toList = p.topDown ∧ p.preorder = p.topDown ∧
        p.topDown = p :: p.inputs.flatMap topDown) ∧
      (p.postorderWalk.toList = p.bottomUp ∧ p.postorder = p.bottomUp ∧
        p.bottomUp = p.inputs.flatMap bottomUp ++ [p]) ∧
      (MeetsOnce p p.preorderWalk.toList p.places ∧
        MeetsOnce p p.postorderWalk.toList p.placesUp) ∧
      p.preorderWalk.toList.Perm p.postorderWalk.toList ∧
      (∀ (β : Type) (f : Plan → List β),
        (p.preorderWith (m := Id) f).ensureTermination.toList.run = p.topDown.flatMap f ∧
          (p.postorderWith (m := Id) f).ensureTermination.toList.run = p.bottomUp.flatMap f) ∧
      ∀ (σ β : Type) (f : Plan → StateM σ (List β)),
        (p.preorderWith f).ensureTermination.toList = List.flatten <$> p.topDown.mapM f ∧
          (p.postorderWith f).ensureTermination.toList = List.flatten <$> p.bottomUp.mapM f := by
  have htop := p.toList_preorderWalk
  have hbottom := p.toList_postorderWalk
  have hmeets : MeetsOnce p p.preorderWalk.toList p.places := by
    rw [htop]
    exact p.meetsOnce_topDown
  have hmeetsUp : MeetsOnce p p.postorderWalk.toList p.placesUp := by
    rw [hbottom]
    exact p.meetsOnce_bottomUp
  refine ⟨⟨inferInstance, inferInstance⟩, ⟨htop, p.preorder_eq_topDown, p.topDown_eq⟩,
    ⟨hbottom, p.postorder_eq_bottomUp, p.bottomUp_eq⟩, ⟨hmeets, hmeetsUp⟩, hmeets.perm hmeetsUp, ?_, ?_⟩
  · intro β f
    rw [preorderWith, postorderWith, Walk.toList_gather_id, Walk.toList_gather_id, htop, hbottom]
    exact ⟨rfl, rfl⟩
  · intro σ β f
    rw [preorderWith, postorderWith, Walk.toList_gather, Walk.toList_gather, htop, hbottom]
    exact ⟨rfl, rfl⟩

end Planner.Plan
