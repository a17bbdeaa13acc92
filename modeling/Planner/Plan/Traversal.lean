import Planner.Plan.Basic

/-! # Traversals

`preorder` and `postorder` list the nodes of a plan with a stack of what is still to come.  The
stack holds the next node on top, so a node's inputs go onto it in order.  Each step takes a node off
or opens one up, and `pending` counts the steps left.

`preorderWalk` and `postorderWalk` are the same traversals one node at a time: a `Walk` says what one
step does and why the steps end, and makes an iterator.  `preorderWith` and `postorderWith` hand out
what a function finds at the nodes on the way. -/

namespace Planner.Plan

open Std

theorem size_eq (p : Plan) : p.size = total (p.inputs.map size) + 1 := by
  rw [size, fold_eq]
  rfl

theorem size_pos (p : Plan) : 0 < p.size := by
  rw [size_eq]
  omega

theorem total_size_opened (p : Plan) (rest : List Plan) :
    total ((p.inputs ++ rest).map size) < total ((p :: rest).map size) := by
  simp only [List.map_append, total_append, List.map_cons, total_cons]
  rw [size_eq p]
  omega

/-- The nodes of the plans on a stack, each before its inputs. -/
def preorderFrom (stack : List Plan) : List Plan :=
  match stack with
  | [] => []
  | p :: rest => p :: preorderFrom (p.inputs ++ rest)
termination_by total (stack.map size)
decreasing_by exact total_size_opened p rest

/-- The nodes of a plan, each before its inputs. -/
def preorder (p : Plan) : List Plan := preorderFrom [p]

/-- The steps left for an entry: two for each node that is not opened up, one for an open one. -/
def pending (entry : Plan × Bool) : Nat := if entry.2 then 1 else 2 * entry.1.size

theorem total_twice_size (ps : List Plan) :
    total (ps.map (fun c => 2 * c.size)) = 2 * total (ps.map size) := by
  induction ps with
  | nil => rfl
  | cons p rest ih =>
    simp only [List.map_cons, total_cons, ih]
    omega

theorem total_pending_opened (p : Plan) (rest : List (Plan × Bool)) :
    total ((p.inputs.map (fun c => (c, false)) ++ (p, true) :: rest).map pending) <
      total (((p, false) :: rest).map pending) := by
  simp only [List.map_append, total_append, List.map_cons, total_cons, List.map_map,
    Function.comp_def, pending, if_true, Bool.false_eq_true, if_false]
  rw [size_eq p, total_twice_size]
  omega

/-- The nodes of the plans on a stack, each after its inputs.  An entry is marked once its inputs
stand above it. -/
def postorderFrom (stack : List (Plan × Bool)) : List Plan :=
  match stack with
  | [] => []
  | (p, true) :: rest => p :: postorderFrom rest
  | (p, false) :: rest =>
    postorderFrom (p.inputs.map (fun c => (c, false)) ++ (p, true) :: rest)
termination_by total (stack.map pending)
decreasing_by
  · simp [pending]
  · exact total_pending_opened p rest

/-- The nodes of a plan, each after its inputs. -/
def postorder (p : Plan) : List Plan := postorderFrom [(p, false)]

/-! ### One node at a time -/

/-- A way to meet the nodes of plans one after the other, which always ends. -/
class Walk (σ : Type) where
  /-- What one step does: it meets a node, it meets none, or the walk is over. -/
  step : σ → IterStep σ Plan
  /-- A bound on the steps that are left. -/
  left : σ → Nat
  left_lt : ∀ {walk next : σ}, (step walk).successor = some next → left next < left walk

variable {σ : Type}

instance [Walk σ] : Iterator σ Id Plan where
  IsPlausibleStep walk step := step = (Walk.step walk.internalState).mapIterator (⟨·⟩)
  step walk := pure (.deflate ⟨(Walk.step walk.internalState).mapIterator (⟨·⟩), rfl⟩)

theorem Walk.left_lt_of_successor [Walk σ] {walk next : IterM (α := σ) Id Plan}
    (h : next.IsPlausibleSuccessorOf walk) :
    left next.internalState < left walk.internalState := by
  obtain ⟨step, hnext, hstep⟩ := h
  obtain rfl : step = _ := hstep
  apply left_lt
  cases hwalk : Walk.step walk.internalState <;> rw [hwalk] at hnext <;> cases hnext <;> rfl

instance [Walk σ] : Iterators.Finite σ Id where
  wf := Subrelation.wf Walk.left_lt_of_successor
    (measure (fun walk : IterM (α := σ) Id Plan => Walk.left walk.internalState)).wf

/-- What `f` finds at the nodes that a walk meets, one thing after the other.  At a node it may find
any number of things. -/
def Walk.gather [Walk σ] {m : Type → Type} [Monad m] [MonadAttach m] {β : Type}
    (f : Plan → m (List β)) (walk : Iter (α := σ) Plan) :=
  walk.flatMapM (fun node => do return (← f node).iterM m)

/-- A walk that meets each node before its inputs: the plans that it has still to enter, the next one
first. -/
structure PreorderWalk where
  stack : List Plan

instance : Walk PreorderWalk where
  step
    | ⟨[]⟩ => .done
    | ⟨p :: rest⟩ => .yield ⟨p.inputs ++ rest⟩ p
  left walk := total (walk.stack.map size)
  left_lt {walk next} h := by
    obtain ⟨_ | ⟨p, rest⟩⟩ := walk
    · cases h
    · cases h
      exact total_size_opened p rest

/-- A walk that meets each node after its inputs.  A plan is marked once its inputs stand above it, and
is met when it is on top again; the step that opens it up meets no node. -/
structure PostorderWalk where
  stack : List (Plan × Bool)

instance : Walk PostorderWalk where
  step
    | ⟨[]⟩ => .done
    | ⟨(p, true) :: rest⟩ => .yield ⟨rest⟩ p
    | ⟨(p, false) :: rest⟩ => .skip ⟨p.inputs.map (fun c => (c, false)) ++ (p, true) :: rest⟩
  left walk := total (walk.stack.map pending)
  left_lt {walk next} h := by
    obtain ⟨_ | ⟨⟨p, _ | _⟩, rest⟩⟩ := walk
    · cases h
    · cases h
      exact total_pending_opened p rest
    · cases h
      simp [pending]

/-- The walk from a plan that meets each node before its inputs. -/
def preorderWalk (p : Plan) : Iter (α := PreorderWalk) Plan := ⟨⟨[p]⟩⟩

/-- The walk from a plan that meets each node after its inputs. -/
def postorderWalk (p : Plan) : Iter (α := PostorderWalk) Plan := ⟨⟨[(p, false)]⟩⟩

section With

variable {m : Type → Type} [Monad m] [MonadAttach m] {β : Type}

/-- What `f` finds at the nodes of a plan, at each node before its inputs. -/
def preorderWith (f : Plan → m (List β)) (p : Plan) := Walk.gather f p.preorderWalk

/-- What `f` finds at the nodes of a plan, at each node after its inputs. -/
def postorderWith (f : Plan → m (List β)) (p : Plan) := Walk.gather f p.postorderWalk

end With

/-- Each node with each of its inputs, in preorder of the nodes. -/
def edges (p : Plan) : List (Plan × Plan) :=
  (p.preorderWith (m := Id) (fun node => node.inputs.map (fun input => (node, input)))).toList.run

/-- The nodes without inputs, from left to right. -/
def leaves (p : Plan) : List Plan :=
  (p.postorderWith (m := Id) (fun node => if node.isLeaf then [node] else [])).toList.run

end Planner.Plan
