import Planner.Proofs.Flow.Renumbered
import Planner.Proofs.Program.Binding
import Planner.Proofs.Program.Confluence

/-! # Assignments that nothing reads

`Statement.Inserted` holds of two lists of statements if the second one has one more statement, at any
place and any depth.  If the extra statement assigns a name that nothing reads, the other statements
find the same schemes for what they read (`KnownAlike`), so that their nodes are the same but for their
numbers, which leave one out (`skip`): the code without the extra node is a renumbering of the code of
the first list (`Inserted.extraNode`).

The extra node is dead, so it may be deleted before the pass deletes other nodes, and what the passes
leave of both graphs then differs by the numbers of the nodes alone.  Main statement:
`compile_inserted`. -/

namespace Planner

open Planner.Flow

/-! ### Known schemes -/

/-- The same schemes are known but for one name. -/
def KnownAlike (name : String) (temps temps' : Temps) : Prop :=
  ∀ x, x ≠ name → temps.lookup x = temps'.lookup x

namespace KnownAlike

variable {name : String} {temps temps' : Temps}

theorem refl (name : String) (temps : Temps) : KnownAlike name temps temps := fun _ _ => rfl

theorem bound_eq (h : KnownAlike name temps temps') {p : Plan} (hp : name ∉ p.temps) :
    p.bound temps = p.bound temps' := by
  rw [Plan.bound, Plan.bound, Plan.bindTemps_congr (fun x hx => h x (fun e => hp (e ▸ hx)))]

theorem cons (h : KnownAlike name temps temps') (target : String) (scheme : Scheme) :
    KnownAlike name ((target, scheme) :: temps) ((target, scheme) :: temps') := by
  intro x hx
  rw [List.lookup_cons, List.lookup_cons, h x hx]

theorem cons_self (name : String) (scheme : Scheme) (temps : Temps) :
    KnownAlike name temps ((name, scheme) :: temps) := by
  intro x hx
  rw [List.lookup_cons, beq_false_of_ne hx]

end KnownAlike

namespace Statement

/-! ### Code with other numbers -/

variable {cells : Cells} {name : String} {temps temps' : Temps} {ρ : ℕ → ℕ} {i j k : ℕ}

mutual

theorem assigned_alike (cells : Cells) (s : Statement) {temps temps' : Temps}
    (hs : ∀ q ∈ s.written, name ∉ q.temps) (h : KnownAlike name temps temps') :
    KnownAlike name (s.assigned cells temps) (s.assigned cells temps') := by
  cases s with
  | assign target plan =>
      rw [assigned, assigned, h.bound_eq (hs plan List.mem_cons_self)]
      cases (plan.bound temps').scheme cells with
      | error e => exact h
      | ok scheme => exact h.cons target scheme
  | store key plan => exact h
  | doWhile body condition =>
      exact assignedAll_alike cells body (fun q hq => hs q (List.mem_append_left _ hq)) h

theorem assignedAll_alike (cells : Cells) (l : List Statement) {temps temps' : Temps}
    (hl : ∀ q ∈ writtenAll l, name ∉ q.temps) (h : KnownAlike name temps temps') :
    KnownAlike name (assignedAll cells l temps) (assignedAll cells l temps') := by
  cases l with
  | nil => exact h
  | cons s rest =>
      have hfirst := assigned_alike cells s (fun q hq => hl q (List.mem_append_left _ hq)) h
      exact assignedAll_alike cells rest (fun q hq => hl q (List.mem_append_right _ hq)) hfirst

end

mutual

theorem code_alike (cells : Cells) (s : Statement) {temps temps' : Temps} {i j : ℕ}
    (hs : ∀ q ∈ s.written, name ∉ q.temps) (h : KnownAlike name temps temps')
    (hρ : ∀ d < s.size, ρ (i + d) = j + d) :
    s.code cells temps' j = (s.code cells temps i).renumber ρ := by
  cases s with
  | assign target plan =>
      rw [code, code, h.bound_eq (hs plan List.mem_cons_self)]
      have hi : ρ i = j := hρ 0 Nat.one_pos
      rw [← hi]
      rfl
  | store key plan =>
      rw [code, code, h.bound_eq (hs plan List.mem_cons_self)]
      have hi : ρ i = j := hρ 0 Nat.one_pos
      rw [← hi]
      rfl
  | doWhile body condition =>
      have hwritten : ∀ q ∈ writtenAll body, name ∉ q.temps :=
        fun q hq => hs q (List.mem_append_left _ hq)
      have hcondition : name ∉ condition.temps :=
        hs condition (List.mem_append_right _ List.mem_cons_self)
      have hbody := codeAll_alike cells body hwritten h (fun d hd => hρ d (Nat.lt_succ_of_lt hd))
      have htest : ρ (i + sizeAll body) = j + sizeAll body := hρ _ (Nat.lt_succ_self _)
      rw [code, code, hbody, ← htest,
        (assignedAll_alike cells body hwritten h).bound_eq hcondition]
      rfl

theorem codeAll_alike (cells : Cells) (l : List Statement) {temps temps' : Temps} {i j : ℕ}
    (hl : ∀ q ∈ writtenAll l, name ∉ q.temps) (h : KnownAlike name temps temps')
    (hρ : ∀ d < sizeAll l, ρ (i + d) = j + d) :
    codeAll cells l temps' j = (codeAll cells l temps i).renumber ρ := by
  cases l with
  | nil => rfl
  | cons s rest =>
      have hs : ∀ q ∈ s.written, name ∉ q.temps := fun q hq => hl q (List.mem_append_left _ hq)
      have hfirst := code_alike cells s hs h (fun d hd => hρ d (Nat.lt_add_right _ hd))
      have hrest := codeAll_alike cells rest (fun q hq => hl q (List.mem_append_right _ hq))
        (assigned_alike cells s hs h) (i := i + s.size) (j := j + s.size) (fun d hd => by
          rw [Nat.add_assoc, Nat.add_assoc]
          exact hρ (s.size + d) (Nat.add_lt_add_left hd _))
      rw [codeAll, codeAll, hfirst, hrest, Code.renumber_append]

end

/-! ### One more statement -/

/-- The second list is the first one with one more statement, at the top or in the body of a loop. -/
inductive Inserted (extra : Statement) : List Statement → List Statement → Prop
  | here (rest : List Statement) : Inserted extra rest (extra :: rest)
  | later (first : Statement) {rest rest' : List Statement} (h : Inserted extra rest rest') :
      Inserted extra (first :: rest) (first :: rest')
  | within (condition : Plan) (rest : List Statement) {body body' : List Statement}
      (h : Inserted extra body body') :
      Inserted extra (.doWhile body condition :: rest) (.doWhile body' condition :: rest)

theorem Inserted.mem_written {extra : Statement} {l l' : List Statement} (h : Inserted extra l l') :
    ∀ q ∈ writtenAll l', q ∈ extra.written ∨ q ∈ writtenAll l := by
  induction h with
  | here rest =>
      intro q hq
      rwa [writtenAll, List.mem_append] at hq
  | later first _ ih =>
      intro q hq
      simp only [writtenAll, List.mem_append] at hq ⊢
      rcases hq with hq | hq
      · exact Or.inr (Or.inl hq)
      · exact (ih q hq).imp_right Or.inr
  | within condition rest _ ih =>
      intro q hq
      simp only [writtenAll, written, List.mem_append] at hq ⊢
      rcases hq with (hq | hq) | hq
      · exact (ih q hq).imp_right (fun h => Or.inl (Or.inl h))
      · exact Or.inr (Or.inl (Or.inr hq))
      · exact Or.inr (Or.inr hq)

/-- Numbers that leave one out. -/
def skip (k i : ℕ) : ℕ := if i < k then i else i + 1

theorem skip_of_lt (h : i < k) : skip k i = i := if_pos h

theorem skip_of_le (h : k ≤ i) : skip k i = i + 1 := if_neg (Nat.not_lt.mpr h)

theorem strictMono_skip (k : ℕ) : StrictMono (skip k) := by
  intro i j hij
  unfold skip
  split_ifs <;> omega

/-- The second list has one more node, which assigns the name and has the number `k`; without it the
code is that of the first list, with the other nodes numbered around it. -/
structure ExtraNode (cells : Cells) (name : String) (l l' : List Statement) (temps : Temps) (i k : ℕ) :
    Prop where
  first_le : i ≤ k
  le_last : k ≤ i + sizeAll l
  size_eq : sizeAll l' = sizeAll l + 1
  code_eq : (codeAll cells l' temps i).rewrite (Code.drop k) =
    (codeAll cells l temps i).renumber (skip k)
  alike : KnownAlike name (assignedAll cells l temps) (assignedAll cells l' temps)
  extra : ∃ n ∈ (codeAll cells l' temps i).nodes, n.id = k ∧ n.target = some name

theorem not_mem_ids_codeAll (cells : Cells) (l : List Statement) (temps : Temps) (h : k < i) :
    k ∉ (codeAll cells l temps i).ids := by
  rw [ids_codeAll, List.mem_range'_1]
  omega

theorem codeAll_behind (cells : Cells) {l : List Statement} (hl : ∀ q ∈ writtenAll l, name ∉ q.temps)
    (h : KnownAlike name temps temps') (hk : k ≤ i) :
    (codeAll cells l temps' (i + 1)).rewrite (Code.drop k) =
      (codeAll cells l temps i).renumber (skip k) := by
  rw [Code.rewrite_drop_of_not_mem (not_mem_ids_codeAll cells l temps' (Nat.lt_succ_of_le hk))]
  refine codeAll_alike cells l hl h (fun d _ => ?_)
  rw [skip_of_le (by omega)]
  omega

theorem extraNode_here (cells : Cells) (plan : Plan) {rest : List Statement}
    (hrest : ∀ q ∈ writtenAll rest, name ∉ q.temps) (temps : Temps) (i : ℕ) :
    ExtraNode cells name rest (.assign name plan :: rest) temps i i := by
  -- Whether the plan has a scheme or not, only what is known of the name itself can change.
  have halike : KnownAlike name temps ((assign name plan).assigned cells temps) := by
    rw [assigned]
    cases (plan.bound temps).scheme cells with
    | error e => exact .refl name temps
    | ok scheme => exact .cons_self name scheme temps
  refine ⟨Nat.le_refl i, Nat.le_add_right _ _, Nat.add_comm _ _, ?_, ?_, ?_⟩
  · rw [codeAll, Code.rewrite_append, size, codeAll_behind cells hrest halike (Nat.le_refl i), code,
      Code.rewrite, Code.drop, if_pos rfl]
    rfl
  · exact assignedAll_alike cells rest hrest halike
  · exact ⟨_, List.mem_cons_self, rfl, rfl⟩

theorem ExtraNode.later {first : Statement} {rest rest' : List Statement}
    (hfirst : ∀ q ∈ first.written, name ∉ q.temps)
    (h : ExtraNode cells name rest rest' (first.assigned cells temps) (i + first.size) k) :
    ExtraNode cells name (first :: rest) (first :: rest') temps i k := by
  have hle := h.first_le
  have hlast := h.le_last
  have hkeep : k ∉ (first.code cells temps i).ids := by
    rw [ids_code, List.mem_range'_1]
    omega
  have hcode : first.code cells temps i = (first.code cells temps i).renumber (skip k) :=
    code_alike cells first hfirst (.refl name temps) (fun d hd => skip_of_lt (by omega))
  refine ⟨by omega, by rw [sizeAll]; omega, ?_, ?_, h.alike, ?_⟩
  · rw [sizeAll, sizeAll, h.size_eq, Nat.add_assoc]
  · rw [codeAll, codeAll, Code.rewrite_append, Code.rewrite_drop_of_not_mem hkeep, h.code_eq,
      Code.renumber_append, ← hcode]
  · obtain ⟨n, hn, hid⟩ := h.extra
    exact ⟨n, by rw [codeAll, Code.nodes_append]; exact List.mem_append_right _ hn, hid⟩

theorem ExtraNode.within {body body' rest : List Statement} {condition : Plan}
    (hcondition : name ∉ condition.temps) (hrest : ∀ q ∈ writtenAll rest, name ∉ q.temps)
    (h : ExtraNode cells name body body' temps i k) :
    ExtraNode cells name (.doWhile body condition :: rest) (.doWhile body' condition :: rest) temps i
      k := by
  have hle := h.first_le
  have hlast := h.le_last
  have htest : i + sizeAll body' = skip k (i + sizeAll body) := by
    rw [h.size_eq, skip_of_le hlast]
    omega
  have hnext : i + (sizeAll body' + 1) = i + (sizeAll body + 1) + 1 := by
    rw [h.size_eq]
    omega
  refine ⟨hle, by rw [sizeAll, size]; omega, ?_, ?_, assignedAll_alike cells rest hrest h.alike, ?_⟩
  · rw [sizeAll, sizeAll, size, size, h.size_eq]
    omega
  · have hloop : ((doWhile body' condition).code cells temps i).rewrite (Code.drop k) =
        ((doWhile body condition).code cells temps i).renumber (skip k) := by
      have hne : i + sizeAll body' ≠ k := by
        rw [h.size_eq]
        omega
      rw [code, code, Code.rewrite, h.code_eq, Code.drop_of_ne hne, htest,
        h.alike.bound_eq hcondition]
      rfl
    have hbehind := codeAll_behind cells hrest h.alike (k := k) (i := i + (sizeAll body + 1)) (by omega)
    rw [← hnext] at hbehind
    rw [codeAll, codeAll, Code.rewrite_append, Code.renumber_append, hloop]
    exact congrArg _ hbehind
  · obtain ⟨n, hn, hid⟩ := h.extra
    refine ⟨n, ?_, hid⟩
    rw [codeAll, Code.nodes_append, code, Code.nodes]
    exact List.mem_append_left _ (List.mem_append_left _ hn)

/-- **The code with one more assignment that nothing reads** is the same but for its node. -/
theorem Inserted.extraNode (cells : Cells) {plan : Plan} {l l' : List Statement}
    (h : Inserted (.assign name plan) l l') (hl : ∀ q ∈ writtenAll l, name ∉ q.temps) (temps : Temps)
    (i : ℕ) : ∃ k, ExtraNode cells name l l' temps i k := by
  induction h generalizing temps i with
  | here rest => exact ⟨i, extraNode_here cells plan hl temps i⟩
  | later first _ ih =>
      obtain ⟨k, hk⟩ := ih (fun q hq => hl q (List.mem_append_right _ hq)) (first.assigned cells temps)
        (i + first.size)
      exact ⟨k, hk.later (fun q hq => hl q (List.mem_append_left _ hq))⟩
  | within condition rest _ ih =>
      simp only [writtenAll, written, List.mem_append, List.mem_singleton] at hl
      obtain ⟨k, hk⟩ := ih (fun q hq => hl q (Or.inl (Or.inl hq))) temps i
      exact ⟨k, hk.within (hl condition (Or.inl (Or.inr rfl))) (fun q hq => hl q (Or.inr hq))⟩

end Statement

/-! ### Programs -/

namespace Flow

theorem Binds.exists_written {cells : Cells} {temps temps' : Temps} {plans : List Plan}
    {nodes : List Node} (h : Binds cells temps plans nodes temps') {n : Node} (hn : n ∈ nodes)
    {x : String} (hx : x ∈ n.op.temps) : ∃ q ∈ plans, x ∈ q.temps := by
  induction h with
  | nil => cases hn
  | @cons _ _ written _ _ _ _ first _ ih =>
      rcases List.mem_cons.mp hn with rfl | hn
      · obtain ⟨scheme, hread⟩ := Plan.mem_temps_iff_scans.mp hx
        obtain ⟨old, hold, hbound⟩ := exists_mem_of_forall₂ first.scans hread
        have hname : x = old.1 := hbound.name_eq
        exact ⟨written, List.mem_cons_self, Plan.mem_temps_iff_scans.mpr ⟨old.2, hname ▸ hold⟩⟩
      · obtain ⟨q, hq, hxq⟩ := ih hn
        exact ⟨q, List.mem_cons_of_mem _ hq, hxq⟩

end Flow

namespace Program

variable {p p' : Program} {cells : Cells} {g g' : Graph} {name : String} {plan : Plan} {n : Node}

theorem isDead_of_unread (h : (p.toGraph cells).value = .ok g)
    (hunread : ∀ q ∈ p.written, name ∉ q.temps) (htarget : n.target = some name) :
    g.liveness.value.isDead n = true := by
  refine Graph.isDead_iff.mpr ⟨name, htarget, fun hlive => ?_⟩
  have hg := toGraph_follows h
  have hwithin := Liveness.within_liveness hg.shows.numbered (Liveness.bounds_allUses g)
  obtain ⟨m, hm, huse⟩ := List.mem_flatMap.mp (hwithin.behind_mem n.id name hlive)
  obtain ⟨temps, hbinds⟩ := toGraph_binds h
  have hread : name ∈ m.op.temps := hg.uses_eq hm ▸ huse
  obtain ⟨q, hq, hname⟩ := hbinds.exists_written hm hread
  exact hunread q hq hname

/-- Without the extra node, the graphs differ by the numbers of their nodes alone, and so do those that
the first pass leaves. -/
theorem renumbers_eliminate (h : (p.toGraph cells).value = .ok g)
    (h' : (p'.toGraph cells).value = .ok g')
    (hinserted : Statement.Inserted (.assign name plan) p.statements p'.statements)
    (hunread : ∀ q ∈ plan :: p.written, name ∉ q.temps) :
    ∃ ρ, Graph.Renumbers ρ (p.code cells) g.eliminate.value.1 g'.eliminate.value.1 := by
  have hwritten : ∀ q ∈ p.written, name ∉ q.temps := fun q hq => hunread q (List.mem_cons_of_mem _ hq)
  have hwritten' : ∀ q ∈ p'.written, name ∉ q.temps := by
    intro q hq
    rcases hinserted.mem_written q hq with hplan | hold
    · exact hunread q (List.mem_singleton.mp hplan ▸ List.mem_cons_self)
    · exact hwritten q hold
  obtain ⟨hshows, hcells⟩ := toGraph_shows h
  obtain ⟨hshows', hcells'⟩ := toGraph_shows h'
  obtain ⟨k, hk⟩ := hinserted.extraNode cells hwritten [] 0
  obtain ⟨n, hn, rfl, htarget⟩ := hk.extra
  have hdead := isDead_of_unread (n := n) h' hwritten' htarget
  have hmem : n ∈ g'.nodes := hshows'.nodes_eq ▸ hn
  have hrenumbers : Graph.Renumbers (Statement.skip n.id) (p.code cells) g (g'.without n.id) := by
    refine ⟨Statement.strictMono_skip n.id, toGraph_follows h, ?_, hcells'.trans hcells.symm⟩
    have hleft := ((toGraph_follows h').deadStep hmem hdead).1.shows
    rw [((toGraph_follows h').deadStep hmem hdead).2, hshows'.view_eq] at hleft
    rw [hshows.view_eq]
    exact hk.code_eq ▸ hleft
  -- The pass may delete other nodes before the extra one; what it leaves does not depend on that.
  have heliminate := hrenumbers.eliminate
  rw [(toGraph_follows h').eliminate_without hmem hdead] at heliminate
  exact ⟨_, heliminate⟩

/-- **Assignments that nothing reads leave no trace.**  If a program has one more assignment than
another one, anywhere, of a name that neither the program nor the assigned plan reads, both have the
same plan and the same cells once dead assignments are deleted. -/
theorem compile_inserted (config : Config) (hconfig : config.deadCode = true)
    (h : (p.toGraph cells).value = .ok g) (h' : (p'.toGraph cells).value = .ok g')
    (hinserted : Statement.Inserted (.assign name plan) p.statements p'.statements)
    (hunread : ∀ q ∈ plan :: p.written, name ∉ q.temps) :
    ∃ result, (p.compile cells config).value = .ok result ∧
      (p'.compile cells config).value = .ok result := by
  obtain ⟨ρ, hpruned⟩ := renumbers_eliminate h h' hinserted hunread
  have hoptimized : Graph.Renumbers ρ (p.code cells) (g.optimized config) (g'.optimized config) := by
    unfold Graph.optimized Graph.pruned
    rw [hconfig]
    cases config.chaining with
    | false => exact hpruned
    | true => exact hpruned.chain
  have hshows' := ((toGraph_follows h').optimized config).1.shows
  refine ⟨_, compile_value config h, ?_⟩
  rw [compile_value config h', hoptimized.plans_eq hshows', hoptimized.cells_eq]

/-- The sample program with one more assignment in the inner loop, which reads what is dead without
it. -/
def watched : Program :=
  let x : Plan := .leaf {} (.scanTemp "x" .empty)
  let y : Plan := .leaf {} (.scanTemp "y" .empty)
  let z : Plan := .leaf {} (.scanTemp "z" .empty)
  ⟨[.assign "x" (.leaf {} .singleton), .doWhile [.doWhile [.assign "y" x, .assign "w" y, .assign "z" x,
    .store ⟨"public", "adhoc", "r"⟩ z] x] x]⟩

theorem compile_inserted_watched : ∃ g g' result, (nested.toGraph .empty).value = .ok g ∧
    (watched.toGraph .empty).value = .ok g' ∧
    Statement.Inserted (.assign "w" (.leaf {} (.scanTemp "y" .empty))) nested.statements
      watched.statements ∧
    (∀ q ∈ .leaf {} (.scanTemp "y" .empty) :: nested.written, "w" ∉ q.temps) ∧
    (nested.compile .empty {}).value = .ok result ∧ (watched.compile .empty {}).value = .ok result := by
  have hgraph : ∃ g, (nested.toGraph .empty).value = .ok g := ⟨_, rfl⟩
  have hgraph' : ∃ g, (watched.toGraph .empty).value = .ok g := ⟨_, rfl⟩
  have hinserted : Statement.Inserted (.assign "w" (.leaf {} (.scanTemp "y" .empty)))
      nested.statements watched.statements :=
    .later _ (.within _ _ (.within _ _ (.later _ (.here _))))
  have hscans : ∀ q ∈ .leaf {} (.scanTemp "y" .empty) :: nested.written, ∀ read ∈ q.scans,
      read.1 ≠ "w" := by decide
  have hunread : ∀ q ∈ .leaf {} (.scanTemp "y" .empty) :: nested.written, "w" ∉ q.temps := by
    intro q hq hw
    obtain ⟨scheme, hread⟩ := Plan.mem_temps_iff_scans.mp hw
    exact hscans q hq _ hread rfl
  obtain ⟨g, h⟩ := hgraph
  obtain ⟨g', h'⟩ := hgraph'
  obtain ⟨result, hnested, hwatched⟩ := compile_inserted {} rfl h h' hinserted hunread
  exact ⟨g, g', result, h, h', hinserted, hunread, hnested, hwatched⟩

end Program

end Planner
