import Mathlib.Algebra.Group.Action.Defs
import Mathlib.Algebra.Order.BigOperators.Group.List
import Mathlib.Algebra.Order.Ring.Nat
import Mathlib.Data.List.Chain
import Mathlib.Data.List.Perm.Subperm
import Mathlib.Data.Set.Basic
import Planner.Proofs.Flow.Built

/-! # What is live

The equations of liveness (`Liveness.Solution`) have a least solution, and the sweeps find it.  Every
table on the way stays within any bound that the equations do not leave (`Liveness.Bounds`,
`within_liveness`), so it stays below every solution and below what the paths of the graph
justify.  Every table on the way is also below what the next update makes of it
(`Liveness.Ascending`), so a sweep that changes something makes the table heavier (`sweep_weight`),
and the number of sweeps that `Liveness.solve` allows is never used up (`solve_sweeps`).

Main statements: `solution_liveness`, the result satisfies the equations; `before_iff_readPath`, a
relation is live before a node exactly if a path leads from there to a node that reads it and nothing
on the way assigns it (`Graph.ReadPath`). -/

namespace Planner.Flow

/-! ### Paths to a read -/

/-- A path along the edges from a node to one that reads a relation; nothing on the way assigns the
relation. -/
structure Graph.ReadPath (g : Graph) (name : String) (n : Node) (way : List Node) (reader : Node) :
    Prop where
  starts : (way ++ [reader]).head? = some n
  nodes : ∀ m ∈ way ++ [reader], m ∈ g.nodes
  edges : (way ++ [reader]).IsChain (fun a b => ⟨a.id, b.id⟩ ∈ g.edges)
  reads : name ∈ reader.uses
  keeps : ∀ m ∈ way, m.target ≠ some name

namespace Graph.ReadPath

variable {g : Graph} {name : String} {n m reader : Node} {way : List Node}

theorem here (hn : n ∈ g.nodes) (hname : name ∈ n.uses) : g.ReadPath name n [] n where
  starts := rfl
  nodes := by simpa using hn
  edges := List.isChain_singleton n
  reads := hname
  keeps := by simp

theorem cons (hn : n ∈ g.nodes) (hkeep : n.target ≠ some name) (he : ⟨n.id, m.id⟩ ∈ g.edges)
    (hp : g.ReadPath name m way reader) : g.ReadPath name n (n :: way) reader where
  starts := rfl
  nodes := by
    intro k hk
    rcases List.mem_cons.mp hk with rfl | hk
    · exact hn
    · exact hp.nodes k hk
  edges := by
    rw [List.cons_append, List.isChain_cons]
    refine ⟨?_, hp.edges⟩
    intro k hk
    rw [hp.starts, Option.mem_some_iff] at hk
    exact hk ▸ he
  reads := hp.reads
  keeps := by
    intro k hk
    rcases List.mem_cons.mp hk with rfl | hk
    · exact hkeep
    · exact hp.keeps k hk

/-- A path is a read where it starts, or a step to where the rest of it starts. -/
theorem cases_way (hp : g.ReadPath name n way reader) :
    name ∈ n.uses ∨ n.target ≠ some name ∧
      ∃ m rest, way = n :: rest ∧ ⟨n.id, m.id⟩ ∈ g.edges ∧ g.ReadPath name m rest reader := by
  cases way with
  | nil =>
      obtain rfl : reader = n := by simpa using hp.starts
      exact Or.inl hp.reads
  | cons k rest =>
      obtain rfl : k = n := by simpa using hp.starts
      refine Or.inr ⟨hp.keeps k List.mem_cons_self, ?_⟩
      have hchain := hp.edges
      rw [List.cons_append, List.isChain_cons] at hchain
      obtain ⟨m, hm⟩ : ∃ m, (rest ++ [reader]).head? = some m := by cases rest <;> simp
      refine ⟨m, rest, rfl, hchain.1 m hm, hm, ?_, hchain.2, hp.reads, ?_⟩
      · exact fun i hi => hp.nodes i (List.mem_cons_of_mem k hi)
      · exact fun i hi => hp.keeps i (List.mem_cons_of_mem k hi)

theorem mem_nodes (hp : g.ReadPath name n way reader) : n ∈ g.nodes :=
  hp.nodes n (List.mem_of_mem_head? hp.starts)

end Graph.ReadPath

namespace Liveness

variable {g : Graph} {l m : Liveness} {n : Node} {name : String}

/-! ### The equations -/

/-- Sets before and behind each node that satisfy the equations of liveness. -/
structure Solution (g : Graph) (before behind : ℕ → Set String) : Prop where
  behind_iff : ∀ n ∈ g.nodes, ∀ name,
    name ∈ behind n.id ↔ ∃ s ∈ g.successors n.id, name ∈ before s
  before_iff : ∀ n ∈ g.nodes, ∀ name,
    name ∈ before n.id ↔ name ∈ n.uses ∨ name ∈ behind n.id ∧ n.target ≠ some name

/-- Sets before and behind each node that the equations of liveness do not leave. -/
structure Bounds (g : Graph) (before behind : ℕ → Set String) : Prop where
  uses : ∀ n ∈ g.nodes, ∀ name ∈ n.uses, name ∈ before n.id
  through : ∀ n ∈ g.nodes, ∀ name ∈ behind n.id, n.target ≠ some name → name ∈ before n.id
  joins : ∀ n ∈ g.nodes, ∀ s ∈ g.successors n.id, ∀ name ∈ before s, name ∈ behind n.id

/-- What a table holds lies within the sets. -/
structure Within (l : Liveness) (before behind : ℕ → Set String) : Prop where
  before_mem : ∀ id, ∀ name ∈ l.before id, name ∈ before id
  behind_mem : ∀ id, ∀ name ∈ l.behind id, name ∈ behind id

variable {before behind : ℕ → Set String}

theorem Solution.bounds (h : Solution g before behind) : Bounds g before behind where
  uses := fun n hn name hname => (h.before_iff n hn name).mpr (Or.inl hname)
  through := fun n hn name hname ht => (h.before_iff n hn name).mpr (Or.inr ⟨hname, ht⟩)
  joins := fun n hn s hs name hname => (h.behind_iff n hn name).mpr ⟨s, hs, hname⟩

/-- What is read at the end of a path lies within every bound where the path starts. -/
theorem Bounds.mem_of_readPath (h : Bounds g before behind) {way : List Node} {reader : Node}
    (hp : g.ReadPath name n way reader) : name ∈ before n.id := by
  induction way generalizing n with
  | nil =>
      rcases hp.cases_way with huse | ⟨_, _, _, hway, _⟩
      · exact h.uses n hp.mem_nodes name huse
      · cases hway
  | cons k rest ih =>
      rcases hp.cases_way with huse | ⟨hkeep, m, rest', hway, hedge, hrest⟩
      · exact h.uses n hp.mem_nodes name huse
      · obtain ⟨rfl, rfl⟩ := List.cons.inj hway
        have hbehind := h.joins k hp.mem_nodes m.id (Graph.mem_successors.mpr hedge) name (ih hrest)
        exact h.through k hp.mem_nodes name hbehind hkeep

theorem bounds_readPath (g : Graph) :
    Bounds g (fun id => { name | ∃ n way reader, n.id = id ∧ g.ReadPath name n way reader })
      (fun id => { name | ∃ s ∈ g.successors id, ∃ n way reader, n.id = s ∧
        g.ReadPath name n way reader }) where
  uses := fun n hn name hname => ⟨n, [], n, rfl, .here hn hname⟩
  through := by
    rintro n hn name ⟨_, hs, m, way, reader, rfl, hp⟩ hkeep
    exact ⟨n, n :: way, reader, rfl, .cons hn hkeep (Graph.mem_successors.mp hs) hp⟩
  joins := fun n _ s hs name hname => ⟨s, hs, hname⟩

/-! ### One update -/

theorem mem_beforeAny {ids : List ℕ} : name ∈ l.beforeAny ids ↔ ∃ s ∈ ids, name ∈ l.before s := by
  simp [beforeAny, SortedSet.mem_toList]

theorem mem_through {s : NameSet} :
    name ∈ through n s ↔ name ∈ n.uses ∨ name ∈ s ∧ n.target ≠ some name := by
  simp [through]

theorem mem_transfer_behind :
    name ∈ (transfer g l n).behind ↔ ∃ s ∈ g.successors n.id, name ∈ l.before s := mem_beforeAny

theorem mem_transfer_before :
    name ∈ (transfer g l n).before ↔
      name ∈ n.uses ∨ name ∈ (transfer g l n).behind ∧ n.target ≠ some name := mem_through

/-- The nodes in a table, in order. -/
def keys (l : Liveness) : List ℕ := l.entries.map LiveSets.id

theorem keys_put (l : Liveness) (e : LiveSets) : (l.put e).keys = l.keys := by
  simp only [keys, put, List.map_map]
  refine List.map_congr_left (fun old _ => ?_)
  simp only [Function.comp_apply]
  split_ifs with h
  · exact h.symm
  · rfl

theorem keys_start (g : Graph) : (start g).keys = g.ids := by
  simp [keys, start, Graph.ids]

theorem get_put_self {e : LiveSets} (h : e.id ∈ l.keys) : (l.put e).get e.id = e := by
  obtain ⟨entries⟩ := l
  simp only [keys, List.mem_map] at h
  obtain ⟨old, hmem, hid⟩ := h
  simp only [get, put, List.find?_map]
  cases hf : entries.find?
      ((fun old => old.id == e.id) ∘ fun old => if old.id = e.id then e else old) with
  | none =>
      have := List.find?_eq_none.mp hf old hmem
      simp [hid] at this
  | some found =>
      have := List.find?_some hf
      simp only [Function.comp_apply] at this
      by_cases hfound : found.id = e.id
      · simp [hfound]
      · simp [hfound] at this

theorem get_put_of_ne {e : LiveSets} {id : ℕ} (h : id ≠ e.id) : (l.put e).get id = l.get id := by
  obtain ⟨entries⟩ := l
  simp only [get, put, List.find?_map]
  have hcomp : (fun old : LiveSets => old.id == id) ∘ (fun old => if old.id = e.id then e else old) =
      fun old => old.id == id := by
    funext old
    simp only [Function.comp_apply]
    split_ifs with hold
    · rw [hold]
    · rfl
  rw [hcomp]
  cases hf : entries.find? (fun old => old.id == id) with
  | none => rfl
  | some found =>
      have hid : found.id = id := by simpa using List.find?_some hf
      have hne : found.id ≠ e.id := hid ▸ h
      simp [hne]

theorem get_start (g : Graph) (id : ℕ) : (start g).get id =
    ((g.node? id).map (fun n => ⟨n.id, n.uses, .empty⟩)).getD ⟨id, .empty, .empty⟩ := by
  rw [get, start, List.find?_map]
  rfl

theorem get_start_of_mem (hg : g.Numbered) (hn : n ∈ g.nodes) :
    (start g).get n.id = ⟨n.id, n.uses, .empty⟩ := by
  rw [get_start, hg.node?_of_mem hn]
  rfl

/-- A table that an update cannot make smaller: it has an entry for each node, below what the update
of the node gives. -/
structure Ascending (g : Graph) (l : Liveness) : Prop where
  keys_eq : l.keys = g.ids
  before_mem : ∀ n ∈ g.nodes, ∀ name ∈ l.before n.id, name ∈ (transfer g l n).before
  behind_mem : ∀ n ∈ g.nodes, ∀ name ∈ l.behind n.id, name ∈ (transfer g l n).behind

theorem ascending_start (hg : g.Numbered) : Ascending g (start g) where
  keys_eq := keys_start g
  before_mem := by
    intro n hn name hname
    rw [Liveness.before, get_start_of_mem hg hn] at hname
    exact mem_transfer_before.mpr (Or.inl hname)
  behind_mem := by
    intro n hn name hname
    rw [Liveness.behind, get_start_of_mem hg hn] at hname
    exact absurd hname (SortedSet.not_mem_empty name)

/-- Everything in a table is in another one. -/
def Le (l m : Liveness) : Prop :=
  ∀ id, (∀ name ∈ l.before id, name ∈ m.before id) ∧ (∀ name ∈ l.behind id, name ∈ m.behind id)

theorem Le.transfer_behind (h : Le l m) (hname : name ∈ (transfer g l n).behind) :
    name ∈ (transfer g m n).behind := by
  obtain ⟨s, hs, hname⟩ := mem_transfer_behind.mp hname
  exact mem_transfer_behind.mpr ⟨s, hs, (h s).1 name hname⟩

theorem Le.transfer_before (h : Le l m) (hname : name ∈ (transfer g l n).before) :
    name ∈ (transfer g m n).before := by
  rcases mem_transfer_before.mp hname with huse | ⟨hbehind, hkeep⟩
  · exact mem_transfer_before.mpr (Or.inl huse)
  · exact mem_transfer_before.mpr (Or.inr ⟨h.transfer_behind hbehind, hkeep⟩)

theorem Ascending.get_put (h : Ascending g l) (hn : n ∈ g.nodes) :
    (l.put (transfer g l n)).get n.id = transfer g l n := by
  apply get_put_self (e := transfer g l n)
  rw [h.keys_eq]
  exact List.mem_map_of_mem hn

theorem Ascending.le_put (h : Ascending g l) (hn : n ∈ g.nodes) :
    Le l (l.put (transfer g l n)) := by
  intro id
  by_cases hid : id = n.id
  · subst hid
    rw [Liveness.before, Liveness.before, Liveness.behind, Liveness.behind, h.get_put hn]
    exact ⟨h.before_mem n hn, h.behind_mem n hn⟩
  · rw [Liveness.before, Liveness.before, Liveness.behind, Liveness.behind,
      get_put_of_ne (e := transfer g l n) hid]
    exact ⟨fun _ h => h, fun _ h => h⟩

/-- An update keeps a table ascending: it enlarges the table, so every node's update grows. -/
theorem Ascending.put (hg : g.Numbered) (h : Ascending g l) (hn : n ∈ g.nodes) :
    Ascending g (l.put (transfer g l n)) := by
  have hle := h.le_put hn
  refine ⟨by rw [keys_put, h.keys_eq], ?_, ?_⟩
  · intro m hm name hname
    apply hle.transfer_before
    by_cases hid : m.id = n.id
    · rw [hid, Liveness.before, h.get_put hn] at hname
      rw [hg.eq_of_id hm hn hid]
      exact hname
    · rw [Liveness.before, get_put_of_ne (e := transfer g l n) hid] at hname
      exact h.before_mem m hm name hname
  · intro m hm name hname
    apply hle.transfer_behind
    by_cases hid : m.id = n.id
    · rw [hid, Liveness.behind, h.get_put hn] at hname
      rw [hg.eq_of_id hm hn hid]
      exact hname
    · rw [Liveness.behind, get_put_of_ne (e := transfer g l n) hid] at hname
      exact h.behind_mem m hm name hname

theorem Within.put (hb : Bounds g before behind) (h : Within l before behind) (hasc : Ascending g l)
    (hn : n ∈ g.nodes) : Within (l.put (transfer g l n)) before behind := by
  have hbehind : ∀ name ∈ (transfer g l n).behind, name ∈ behind n.id := by
    intro name hname
    obtain ⟨s, hs, hname⟩ := mem_transfer_behind.mp hname
    exact hb.joins n hn s hs name (h.before_mem s name hname)
  have hbefore : ∀ name ∈ (transfer g l n).before, name ∈ before n.id := by
    intro name hname
    rcases mem_transfer_before.mp hname with huse | ⟨hname, hkeep⟩
    · exact hb.uses n hn name huse
    · exact hb.through n hn name (hbehind name hname) hkeep
  refine ⟨?_, ?_⟩
  · intro id name hname
    by_cases hid : id = n.id
    · rw [hid, Liveness.before, hasc.get_put hn] at hname
      exact hid ▸ hbefore name hname
    · rw [Liveness.before, get_put_of_ne (e := transfer g l n) hid] at hname
      exact h.before_mem id name hname
  · intro id name hname
    by_cases hid : id = n.id
    · rw [hid, Liveness.behind, hasc.get_put hn] at hname
      exact hid ▸ hbehind name hname
    · rw [Liveness.behind, get_put_of_ne (e := transfer g l n) hid] at hname
      exact h.behind_mem id name hname

theorem within_start (hb : Bounds g before behind) : Within (start g) before behind := by
  refine ⟨?_, ?_⟩ <;> intro id name hname
  · rw [Liveness.before, get_start] at hname
    cases hf : g.node? id with
    | none =>
        rw [hf] at hname
        exact absurd hname (SortedSet.not_mem_empty name)
    | some n =>
        obtain ⟨hn, rfl⟩ := Graph.mem_of_node? hf
        rw [hf] at hname
        exact hb.uses n hn name hname
  · rw [Liveness.behind, get_start] at hname
    cases hf : g.node? id with
    | none =>
        rw [hf] at hname
        exact absurd hname (SortedSet.not_mem_empty name)
    | some n =>
        rw [hf] at hname
        exact absurd hname (SortedSet.not_mem_empty name)

/-! ### How heavy a table is -/

/-- The number of names in the sets of an entry. -/
def entryWeight (e : LiveSets) : ℕ := e.before.toList.length + e.behind.toList.length

/-- The number of names in the sets of a table. -/
def weight (g : Graph) (l : Liveness) : ℕ := (g.ids.map (fun id => entryWeight (l.get id))).sum

theorem length_le_of_subset {s t : NameSet} (h : ∀ name ∈ s, name ∈ t) :
    s.toList.length ≤ t.toList.length :=
  (s.nodup_toList.subperm (fun _ hname => h _ hname)).length_le

theorem eq_of_subset_of_length_le {s t : NameSet} (h : ∀ name ∈ s, name ∈ t)
    (hlen : t.toList.length ≤ s.toList.length) : s = t := by
  have hperm := (s.nodup_toList.subperm (fun _ hname => h _ hname)).perm_of_length_le hlen
  exact SortedSet.ext_mem (fun name => hperm.mem_iff)

theorem Ascending.entryWeight_le (h : Ascending g l) (hn : n ∈ g.nodes) :
    entryWeight (l.get n.id) ≤ entryWeight (transfer g l n) :=
  Nat.add_le_add (length_le_of_subset (h.before_mem n hn)) (length_le_of_subset (h.behind_mem n hn))

theorem id_get {id : ℕ} : (l.get id).id = id := by
  unfold get
  cases hf : l.entries.find? (fun e => e.id == id) with
  | none => rfl
  | some e => simpa using List.find?_some hf

/-- An update that changes an entry makes it heavier. -/
theorem Ascending.entryWeight_lt (h : Ascending g l) (hn : n ∈ g.nodes)
    (hne : l.get n.id ≠ transfer g l n) :
    entryWeight (l.get n.id) < entryWeight (transfer g l n) := by
  by_contra hlt
  have hbefore := length_le_of_subset (h.before_mem n hn)
  have hbehind := length_le_of_subset (h.behind_mem n hn)
  simp only [entryWeight, Liveness.before, Liveness.behind] at hlt hbefore hbehind
  have h₁ : (l.get n.id).before = (transfer g l n).before :=
    eq_of_subset_of_length_le (h.before_mem n hn) (by omega)
  have h₂ : (l.get n.id).behind = (transfer g l n).behind :=
    eq_of_subset_of_length_le (h.behind_mem n hn) (by omega)
  apply hne
  rw [LiveSets.mk.injEq]
  exact ⟨id_get, h₁, h₂⟩

theorem Ascending.weight_lt_put (h : Ascending g l) (hn : n ∈ g.nodes)
    (hne : l.get n.id ≠ transfer g l n) : weight g l < weight g (l.put (transfer g l n)) := by
  apply List.sum_lt_sum
  · intro id _
    by_cases hid : id = n.id
    · rw [hid, h.get_put hn]
      exact h.entryWeight_le hn
    · rw [get_put_of_ne (e := transfer g l n) hid]
  · refine ⟨n.id, List.mem_map_of_mem hn, ?_⟩
    rw [h.get_put hn]
    exact h.entryWeight_lt hn hne

/-- The names that some node reads. -/
def allUses (g : Graph) : List String := g.nodes.flatMap (fun n => n.uses.toList)

theorem length_allUses (g : Graph) :
    (allUses g).length = total (g.nodes.map (fun n => n.uses.toList.length)) := by
  unfold allUses
  induction g.nodes with
  | nil => rfl
  | cons n rest ih => rw [List.flatMap_cons, List.length_append, ih, List.map_cons, total_cons]

theorem bounds_allUses (g : Graph) :
    Bounds g (fun _ => { name | name ∈ allUses g }) (fun _ => { name | name ∈ allUses g }) where
  uses := fun n hn _ hname => List.mem_flatMap.mpr ⟨n, hn, hname⟩
  through := fun _ _ _ hname _ => hname
  joins := fun _ _ _ _ _ hname => hname

/-- Only names that some node reads come into a table, so its weight is bounded. -/
theorem weight_le (h : Within l (fun _ => { name | name ∈ allUses g })
      (fun _ => { name | name ∈ allUses g })) : weight g l + 1 ≤ sweepBound g := by
  have hset : ∀ s : NameSet, (∀ name ∈ s, name ∈ allUses g) → s.toList.length ≤ (allUses g).length :=
    fun s hs => (s.nodup_toList.subperm (fun _ hname => hs _ hname)).length_le
  have hentry : ∀ w ∈ g.ids.map (fun id => entryWeight (l.get id)), w ≤ 2 * (allUses g).length := by
    intro w hw
    obtain ⟨id, _, rfl⟩ := List.mem_map.mp hw
    have h₁ := hset _ (h.before_mem id)
    have h₂ := hset _ (h.behind_mem id)
    simp only [entryWeight, Liveness.before, Liveness.behind] at h₁ h₂ ⊢
    omega
  have hsum := List.sum_le_card_nsmul _ _ hentry
  have hids : g.ids.length = g.nodes.length := List.length_map _
  rw [List.length_map, hids, smul_eq_mul] at hsum
  unfold weight sweepBound
  rw [← length_allUses, Nat.mul_comm 2, Nat.mul_assoc]
  omega

/-! ### Sweeping -/

theorem visit_cases (g : Graph) (n : Node) (l : Liveness) (changed : Bool) :
    (l.get n.id = transfer g l n ∧ visit g n (l, changed) = (l, changed)) ∨
      (l.get n.id ≠ transfer g l n ∧
        visit g n (l, changed) = (l.put (transfer g l n), true)) := by
  unfold visit
  by_cases h : l.get n.id = transfer g l n
  · exact Or.inl ⟨h, if_pos h⟩
  · exact Or.inr ⟨h, if_neg h⟩

theorem foldr_visit_induction {P : Liveness → Prop} {ns : List Node}
    (hput : ∀ l, P l → ∀ n ∈ ns, P (l.put (transfer g l n))) (hl : P l) :
    P (ns.foldr (visit g) (l, false)).1 := by
  induction ns with
  | nil => exact hl
  | cons n rest ih =>
      have hrest := ih (fun l hl m hm => hput l hl m (List.mem_cons_of_mem n hm))
      rw [List.foldr_cons]
      rcases visit_cases g n (rest.foldr (visit g) (l, false)).1
        (rest.foldr (visit g) (l, false)).2 with ⟨_, h⟩ | ⟨_, h⟩
      · rw [h]
        exact hrest
      · rw [h]
        exact hput _ hrest n List.mem_cons_self

theorem sweep_induction {P : Liveness → Prop}
    (hput : ∀ l, P l → ∀ n ∈ g.nodes, P (l.put (transfer g l n))) (hl : P l) : P (sweep g l).1 :=
  foldr_visit_induction hput hl

/-- A sweep over some of the nodes that reports no change found each of them up to date. -/
theorem foldr_visit_unchanged {ns : List Node} (h : (ns.foldr (visit g) (l, false)).2 = false) :
    (ns.foldr (visit g) (l, false)).1 = l ∧ ∀ n ∈ ns, l.get n.id = transfer g l n := by
  induction ns with
  | nil => exact ⟨rfl, fun n hn => absurd hn List.not_mem_nil⟩
  | cons n rest ih =>
      rw [List.foldr_cons] at h ⊢
      rcases visit_cases g n (rest.foldr (visit g) (l, false)).1
        (rest.foldr (visit g) (l, false)).2 with ⟨hget, hv⟩ | ⟨_, hv⟩
      · rw [hv] at h ⊢
        obtain ⟨hsame, hrest⟩ := ih h
        rw [hsame] at hget ⊢
        refine ⟨rfl, fun m hm => ?_⟩
        rcases List.mem_cons.mp hm with rfl | hm
        · exact hget
        · exact hrest m hm
      · rw [hv] at h
        exact absurd h (by simp)

/-- A sweep over some of the nodes that reports a change makes the table heavier. -/
theorem foldr_visit_weight (hg : g.Numbered) (hl : Ascending g l) {ns : List Node}
    (hns : ∀ n ∈ ns, n ∈ g.nodes) :
    weight g l + (if (ns.foldr (visit g) (l, false)).2 then 1 else 0) ≤
      weight g (ns.foldr (visit g) (l, false)).1 := by
  induction ns with
  | nil => simp
  | cons n rest ih =>
      have hrest := ih (fun m hm => hns m (List.mem_cons_of_mem n hm))
      have hasc : Ascending g (rest.foldr (visit g) (l, false)).1 :=
        foldr_visit_induction (fun l hl m hm => hl.put hg (hns m (List.mem_cons_of_mem n hm))) hl
      rw [List.foldr_cons]
      rcases visit_cases g n (rest.foldr (visit g) (l, false)).1
        (rest.foldr (visit g) (l, false)).2 with ⟨_, hv⟩ | ⟨hne, hv⟩
      · rw [hv]
        exact hrest
      · have hlt := hasc.weight_lt_put (hns n List.mem_cons_self) hne
        rw [hv]
        simp only [if_true]
        split_ifs at hrest <;> omega

theorem sweep_weight (hg : g.Numbered) (hl : Ascending g l) (h : (sweep g l).2 = true) :
    weight g l < weight g (sweep g l).1 := by
  have hle : weight g l + (if (sweep g l).2 then 1 else 0) ≤ weight g (sweep g l).1 :=
    foldr_visit_weight hg hl (fun _ hn => hn)
  rw [if_pos h] at hle
  omega

/-- Sweeping a table until nothing changes: the number of sweeps and the table they end with. -/
inductive Sweeps (g : Graph) : Liveness → ℕ → Liveness → Prop
  | last {l m : Liveness} : sweep g l = (m, false) → Sweeps g l 1 m
  | more {l m k : Liveness} {count : ℕ} :
      sweep g l = (m, true) → Sweeps g m count k → Sweeps g l (count + 1) k

theorem Sweeps.get_eq {count : ℕ} (h : Sweeps g l count m) :
    ∀ n ∈ g.nodes, m.get n.id = transfer g m n := by
  induction h with
  | @last l m h =>
      have hsnd : (sweep g l).2 = false := by rw [h]
      obtain ⟨hsame, hget⟩ := foldr_visit_unchanged hsnd
      have hfst : (sweep g l).1 = m := by rw [h]
      have : l = m := hsame.symm.trans hfst
      exact this ▸ hget
  | more _ _ ih => exact ih

theorem Sweeps.induction {P : Liveness → Prop} {count : ℕ} (h : Sweeps g l count m)
    (hput : ∀ l, P l → ∀ n ∈ g.nodes, P (l.put (transfer g l n))) (hl : P l) : P m := by
  induction h with
  | last h =>
      have := sweep_induction hput hl
      rwa [h] at this
  | more h _ ih =>
      have := sweep_induction hput hl
      rw [h] at this
      exact ih this

/-- Each sweep but the last makes the table heavier and the weight is bounded, so the allowed number
of sweeps is enough. -/
theorem solveWithin_sweeps (hg : g.Numbered) {fuel : ℕ} (count : ℕ) (hl : Ascending g l)
    (hw : Within l (fun _ => { name | name ∈ allUses g }) (fun _ => { name | name ∈ allUses g }))
    (hfuel : sweepBound g ≤ fuel + weight g l) :
    ∃ k m, solveWithin g fuel count l = (m, count + k) ∧ Sweeps g l k m := by
  induction fuel generalizing l count with
  | zero =>
      have := weight_le hw
      omega
  | succ fuel ih =>
      cases hs : sweep g l with
      | mk m changed =>
          cases changed with
          | false =>
              refine ⟨1, m, ?_, .last hs⟩
              rw [solveWithin, hs]
          | true =>
              have hlt := sweep_weight hg hl (by rw [hs])
              have hkeep := sweep_induction (P := fun l => Ascending g l ∧ Within l _ _)
                (fun l hl n hn => ⟨hl.1.put hg hn, hl.2.put (bounds_allUses g) hl.1 hn⟩) ⟨hl, hw⟩
              rw [hs] at hlt hkeep
              simp only at hlt
              obtain ⟨k, r, hr, hsweeps⟩ := ih (l := m) (count + 1) hkeep.1 hkeep.2 (by omega)
              refine ⟨k + 1, r, ?_, .more hs hsweeps⟩
              rw [solveWithin, hs]
              simp only
              rw [hr]
              congr 1
              omega

theorem solve_sweeps (hg : g.Numbered) : Sweeps g (start g) (solve g).2 (solve g).1 := by
  obtain ⟨k, m, hsolve, hsweeps⟩ := solveWithin_sweeps hg 0 (ascending_start hg)
    (within_start (bounds_allUses g)) (Nat.le_add_right (sweepBound g) _)
  rw [Nat.zero_add] at hsolve
  unfold solve
  rw [hsolve]
  exact hsweeps

/-! ### The result -/

theorem liveness_value (g : Graph) : g.liveness.value = (solve g).1 := rfl

theorem solution_liveness (hg : g.Numbered) :
    Solution g (fun id => { name | name ∈ g.liveness.value.before id })
      (fun id => { name | name ∈ g.liveness.value.behind id }) := by
  rw [liveness_value]
  have hget := (solve_sweeps hg).get_eq
  refine ⟨?_, ?_⟩ <;> intro n hn name
  · simp only [Set.mem_ofPred_eq, Liveness.behind, hget n hn]
    exact mem_transfer_behind
  · simp only [Set.mem_ofPred_eq, Liveness.before, Liveness.behind, hget n hn]
    exact mem_transfer_before

theorem within_liveness (hg : g.Numbered) (hb : Bounds g before behind) :
    Within g.liveness.value before behind := by
  rw [liveness_value]
  exact ((solve_sweeps hg).induction (P := fun l => Ascending g l ∧ Within l before behind)
    (fun l hl n hn => ⟨hl.1.put hg hn, hl.2.put hb hl.1 hn⟩)
    ⟨ascending_start hg, within_start hb⟩).2

/-- Live before a node is what a path leads to. -/
theorem before_iff_readPath (hg : g.Numbered) (hn : n ∈ g.nodes) :
    name ∈ g.liveness.value.before n.id ↔ ∃ way reader, g.ReadPath name n way reader := by
  constructor
  · intro hname
    obtain ⟨m, way, reader, hid, hp⟩ :=
      (within_liveness hg (bounds_readPath g)).before_mem n.id name hname
    obtain rfl : m = n := hg.eq_of_id hp.mem_nodes hn hid
    exact ⟨way, reader, hp⟩
  · rintro ⟨way, reader, hp⟩
    exact (solution_liveness hg).bounds.mem_of_readPath hp

/-- **Liveness is exact.**  On every graph that can be built, the sweeps end; live before a node is
what a path leads to whose earlier nodes do not assign it, live behind a node is what is live before
a successor, and the result is the least solution of the equations. -/
theorem liveness_exact (hg : g.Built) :
    (∃ count, Sweeps g (start g) count g.liveness.value) ∧
      (∀ n ∈ g.nodes, ∀ name, name ∈ g.liveness.value.before n.id ↔
        ∃ way reader, g.ReadPath name n way reader) ∧
      (∀ n ∈ g.nodes, ∀ name, name ∈ g.liveness.value.behind n.id ↔
        ∃ s ∈ g.successors n.id, name ∈ g.liveness.value.before s) ∧
      Solution g (fun id => { name | name ∈ g.liveness.value.before id })
        (fun id => { name | name ∈ g.liveness.value.behind id }) ∧
      ∀ before behind, Solution g before behind →
        ∀ id, (∀ name ∈ g.liveness.value.before id, name ∈ before id) ∧
          ∀ name ∈ g.liveness.value.behind id, name ∈ behind id := by
  have hnum := hg.numbered
  refine ⟨⟨_, solve_sweeps hnum⟩, fun n hn name => before_iff_readPath hnum hn,
    (solution_liveness hnum).behind_iff, solution_liveness hnum, ?_⟩
  intro before behind hsol id
  have hwithin := within_liveness hnum hsol.bounds
  exact ⟨hwithin.before_mem id, hwithin.behind_mem id⟩

/-- A loop that reads `x` in its first node and assigns it in its second one. -/
def carried : Graph :=
  let g := ((Graph.empty.withNode default none (.ofList ["x"])).withNode default (some "x")
    .empty).withNode default none .empty
  { g with edges := g.edges.insert ⟨2, 0⟩ }

theorem built_carried : carried.Built := by
  refine Graph.Built.connect (s := 2) (t := 0) ?_ (Graph.connect_of_mem (by decide) (by decide))
  exact (((Graph.Built.empty .empty).add _ _ _).add _ _ _).add _ _ _

/-- Around the back edge: `x` is live before the last node, for the first one reads it again. -/
theorem liveness_exact_carried :
    carried.Built ∧ "x" ∈ carried.liveness.value.before 2 := by
  refine ⟨built_carried, ?_⟩
  have hiff := (liveness_exact built_carried).2.1 ⟨2, default, none, .empty⟩
    (by simp [carried, Graph.withNode, Graph.empty]) "x"
  have hread : carried.ReadPath "x" ⟨0, default, none, .ofList ["x"]⟩ [] _ :=
    .here (by simp [carried, Graph.withNode, Graph.empty]) (by simp)
  refine hiff.mpr ⟨_, _, .cons ?_ (by simp) ?_ hread⟩
  · simp [carried, Graph.withNode, Graph.empty]
  · simp [carried]

end Liveness

namespace Graph

variable {g : Graph} {n : Node}

/-! ### The equations at a node -/

theorem mem_behind_of_edge (hg : g.Numbered) (hn : n ∈ g.nodes) {i : ℕ} (hedge : ⟨n.id, i⟩ ∈ g.edges)
    {x : String} (hx : x ∈ g.liveness.value.before i) : x ∈ g.liveness.value.behind n.id :=
  (Liveness.solution_liveness hg).bounds.joins n hn i (mem_successors.mpr hedge) x hx

theorem target_ne {name x : String} (htarget : n.target = some name) (hne : x ≠ name) :
    n.target ≠ some x := by
  rw [htarget]
  exact fun e => hne (Option.some.inj e).symm

theorem mem_before_of_behind (hg : g.Numbered) (hn : n ∈ g.nodes) {x : String}
    (hx : x ∈ g.liveness.value.behind n.id) (htarget : n.target ≠ some x) :
    x ∈ g.liveness.value.before n.id :=
  (Liveness.solution_liveness hg).bounds.through n hn x hx htarget

theorem mem_before_of_uses (hg : g.Numbered) (hn : n ∈ g.nodes) {x : String} (hx : x ∈ n.uses) :
    x ∈ g.liveness.value.before n.id :=
  (Liveness.solution_liveness hg).bounds.uses n hn x hx

end Graph

end Planner.Flow
