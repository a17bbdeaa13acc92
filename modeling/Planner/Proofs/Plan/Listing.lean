import Mathlib.Data.List.Nodup
import Planner.Plan.Explain
import Planner.Proofs.Plan.Copies
import Planner.Proofs.Plan.Signs
import Planner.Proofs.Plan.Traversal

/-! # Listings of symbols

Binding the symbols of plans one after the other numbers their nodes on, inputs first, and adds one line
for each of them.  `Numbered` says so for a list of plans: lists follow each other (`Numbered.append`),
and a node follows its inputs (`Numbered.node`), so it holds of every plan without symbols
(`numbered_bindSymbols`).

Main statement: `explain_assigns_once`, the listing of a plan without symbols assigns each node once,
after its inputs.  The lines show operators without notes and cells, so plans that differ in those only
are listed alike (`bindSymbols_congr`). -/

namespace Planner

namespace SymbolSource

/-- Symbols with different numbers are different. -/
theorem symbol_injective (stem : String) : Function.Injective (symbol stem) := by
  intro i j h
  have hdigits : Nat.toDigits 10 i = Nat.toDigits 10 j := by
    have hlist := congrArg String.toList h
    simpa [symbol, Nat.repr] using hlist
  have hvalue := congrArg (fun ds => Nat.ofDigitChars 10 ds 0) hdigits
  simpa using hvalue

/-- The source that has handed out more symbols. -/
def advance (g : SymbolSource) (n : ℕ) : SymbolSource := { g with issued := g.issued + n }

/-- The next symbols of a source. -/
def next (g : SymbolSource) (n : ℕ) : List String :=
  (List.range' (g.issued + 1) n).map (symbol g.stem)

theorem advance_add (g : SymbolSource) (m n : ℕ) : (g.advance m).advance n = g.advance (m + n) := by
  simp [advance, Nat.add_assoc]

theorem next_add (g : SymbolSource) (m n : ℕ) : g.next (m + n) = g.next m ++ (g.advance m).next n := by
  have hstart : g.issued + m + 1 = g.issued + 1 + m := by omega
  simp only [next, advance]
  rw [hstart, ← List.map_append, List.range'_append_1]

theorem next_succ (g : SymbolSource) (n : ℕ) : g.next (n + 1) = g.next n ++ [(g.advance n).fresh.1] :=
  next_add g n 1

theorem eq_of_getElem?_next {g : SymbolSource} {n k : ℕ} {a : String} (h : (g.next n)[k]? = some a) :
    a = symbol g.stem (g.issued + (k + 1)) := by
  obtain ⟨hk, rfl⟩ := List.getElem?_eq_some_iff.mp h
  have hnumber : g.issued + 1 + k = g.issued + (k + 1) := by omega
  simp [next, hnumber]

theorem nodup_next (g : SymbolSource) (n : ℕ) : (g.next n).Nodup :=
  List.Nodup.map (symbol_injective g.stem) List.nodup_range'

end SymbolSource

namespace Plan

open SymbolSource

variable {p q : Plan} {l m n : Listing}

/-! ### Parts of a node -/

theorem notes_withInputs (p : Plan) (qs : List Plan) : (p.withInputs qs).notes = p.notes := by
  unfold withInputs
  split <;> rfl

theorem notes_withNotes (notes : Notes) (p : Plan) : (p.withNotes notes).notes = notes := by
  cases p <;> rfl

theorem short_withInputs (p : Plan) (qs : List Plan) : (p.withInputs qs).short = p.short := by
  unfold withInputs
  split <;> rfl

theorem short_withNotes (notes : Notes) (p : Plan) : (p.withNotes notes).short = p.short := by
  cases p <;> rfl

theorem short_bare (p : Plan) : p.bare.short = p.short := by
  cases p with
  | leaf notes op => cases op <;> rfl
  | unary notes op input => cases op <;> rfl
  | binary notes op left right => rfl
  | nary notes op inputs => rw [bare_nary]; rfl

theorem withNotes_withNotes (notes other : Notes) (p : Plan) :
    (p.withNotes notes).withNotes other = p.withNotes other := by
  cases p <;> rfl

/-- Other inputs, other notes, and the inputs back. -/
theorem withInputs_withNotes_withInputs {notes : Notes} {qs : List Plan}
    (h : qs.length = p.inputs.length) :
    ((p.withInputs qs).withNotes notes).withInputs p.inputs = p.withNotes notes := by
  cases p with
  | leaf _ op => rfl
  | unary _ op input =>
      obtain ⟨q, rfl⟩ := List.length_eq_one_iff.mp h
      rfl
  | binary _ op left right =>
      obtain ⟨q, r, rfl⟩ := List.length_eq_two.mp h
      rfl
  | nary _ op inputs => rfl

/-! ### Plans with and without symbols -/

/-- No node of the plan has a symbol. -/
def Unbound (p : Plan) : Prop := ∀ q ∈ p.postorder, q.notes.bound = none

theorem unbound_iff : p.Unbound ↔ p.notes.bound = none ∧ ∀ q ∈ p.inputs, q.Unbound := by
  unfold Unbound
  rw [postorder_eq, List.forall_mem_append, List.forall_mem_flatMap, List.forall_mem_singleton,
    and_comm]

/-- The plan without its symbols. -/
def unbind (p : Plan) : Plan :=
  p.fold (fun node inputs => (node.withNotes { node.notes with bound := none }).withInputs inputs)

theorem unbind_eq (p : Plan) :
    p.unbind = (p.withNotes { p.notes with bound := none }).withInputs (p.inputs.map unbind) := by
  rw [unbind, fold_eq]
  rfl

theorem inputs_unbind (p : Plan) : p.unbind.inputs = p.inputs.map unbind := by
  rw [unbind_eq, inputs_withInputs]
  rw [List.length_map, inputs_withNotes]

/-- The symbol of a node, empty if it has none. -/
def symbolOf (q : Plan) : String := q.notes.bound.getD ""

theorem map_symbolOf {qs : List Plan} {symbols : List String}
    (h : qs.map (fun q => q.notes.bound) = symbols.map some) : qs.map symbolOf = symbols := by
  have hsymbols : qs.map symbolOf = (qs.map (fun q => q.notes.bound)).map (fun a => a.getD "") := by
    rw [List.map_map]
    rfl
  rw [hsymbols, h]
  simp

/-- The line that assigns a node of a plan with symbols. -/
def entry (q : Plan) : String := assignment q.symbolOf q (q.inputs.map symbolOf)

/-! ### Binding symbols -/

theorem bindSymbols_of_bound {symbol : String} (h : p.notes.bound = some symbol) (l : Listing) :
    p.bindSymbols l = (p, symbol, l) := by
  cases p <;> simp_all [bindSymbols, notes]

/-- A node without a symbol gets one after its inputs. -/
theorem bindSymbols_of_unbound (h : p.notes.bound = none) (l : Listing) :
    p.bindSymbols l = bindNode (p.withInputs (bindSymbolsAll p.inputs l).1)
      (bindSymbolsAll p.inputs l).2.1 (bindSymbolsAll p.inputs l).2.2 := by
  cases p <;> simp_all [bindSymbols, bindSymbolsAll, notes, inputs, withInputs]

theorem bindSymbolsAll_cons (p : Plan) (ps : List Plan) (l : Listing) : bindSymbolsAll (p :: ps) l =
    ((p.bindSymbols l).1 :: (bindSymbolsAll ps (p.bindSymbols l).2.2).1,
      (p.bindSymbols l).2.1 :: (bindSymbolsAll ps (p.bindSymbols l).2.2).2.1,
      (bindSymbolsAll ps (p.bindSymbols l).2.2).2.2) := rfl

/-- The plans `ps` have been given symbols one after the other: `qs` are the plans with symbols, their
nodes are numbered on, and each node has got a line. -/
structure Numbered (ps : List Plan) (l : Listing) (qs : List Plan) (symbols : List String)
    (after : Listing) : Prop where
  plans : qs.map unbind = ps
  roots : qs.map (fun q => q.notes.bound) = symbols.map some
  nodes : (qs.flatMap postorder).map (fun q => q.notes.bound) =
    (l.source.next (total (ps.map size))).map some
  source : after.source = l.source.advance (total (ps.map size))
  lines : after.lines = l.lines ++ (qs.flatMap postorder).map entry

namespace Numbered

variable {ps qs ps' qs' : List Plan} {as bs : List String}

theorem nil (l : Listing) : Numbered [] l [] [] l :=
  ⟨rfl, rfl, rfl, rfl, (List.append_nil _).symm⟩

theorem append (h : Numbered ps l qs as m) (h' : Numbered ps' m qs' bs n) :
    Numbered (ps ++ ps') l (qs ++ qs') (as ++ bs) n where
  plans := by rw [List.map_append, h.plans, h'.plans]
  roots := by rw [List.map_append, List.map_append, h.roots, h'.roots]
  nodes := by
    rw [List.flatMap_append, List.map_append, h.nodes, h'.nodes, h.source, List.map_append,
      total_append, next_add, List.map_append]
  source := by rw [h'.source, h.source, advance_add, List.map_append, total_append]
  lines := by rw [h'.lines, h.lines, List.flatMap_append, List.map_append, List.append_assoc]

theorem length_eq (h : Numbered ps l qs as m) : qs.length = ps.length := by
  rw [← h.plans, List.length_map]

/-- A node follows its inputs: it gets the next number and a line that names their symbols. -/
theorem node (hp : p.notes.bound = none) (h : Numbered p.inputs l qs as m) :
    Numbered [p] l [(bindNode (p.withInputs qs) as m).1] [m.source.fresh.1]
      (bindNode (p.withInputs qs) as m).2.2 := by
  set r := (bindNode (p.withInputs qs) as m).1 with hr
  have hnotes : r.notes = { p.notes with bound := some m.source.fresh.1 } := by
    rw [hr, bindNode, notes_withNotes, notes_withInputs]
  have hinputs : r.inputs = qs := by
    rw [hr, bindNode, inputs_withNotes, inputs_withInputs h.length_eq]
  have hpostorder : [r].flatMap postorder = qs.flatMap postorder ++ [r] := by
    rw [List.flatMap_singleton, postorder_eq, hinputs]
  have hsize : total ([p].map size) = total (p.inputs.map size) + 1 := size_eq p
  refine ⟨?_, ?_, ?_, ?_, ?_⟩
  · -- Without the new symbol the notes are those of `p`, which had none.
    have hclear : { r.notes with bound := none } = p.notes := by rw [hnotes, ← hp]
    rw [List.map_singleton, unbind_eq, hclear, hinputs, h.plans, hr, bindNode, withNotes_withNotes,
      withInputs_withNotes_withInputs h.length_eq, withNotes_notes]
  · rw [List.map_singleton, hnotes]
    rfl
  · rw [hpostorder, List.map_append, h.nodes, hsize, next_succ, List.map_append, ← h.source,
      List.map_singleton, hnotes]
    rfl
  · rw [hsize, ← advance_add, ← h.source]
    rfl
  · have hentry : r.entry = assignment m.source.fresh.1 (p.withInputs qs) as := by
      have hshort : r.short = (p.withInputs qs).short := by rw [hr, bindNode, short_withNotes]
      simp [entry, assignment, symbolOf, hnotes, hinputs, hshort, map_symbolOf h.roots]
    rw [hpostorder, List.map_append, ← List.append_assoc, ← h.lines, List.map_singleton, hentry]
    rfl

end Numbered

theorem numbered_bindSymbolsAll {ps : List Plan}
    (h : ∀ p ∈ ps, ∀ l, Numbered [p] l [(p.bindSymbols l).1] [(p.bindSymbols l).2.1]
      (p.bindSymbols l).2.2) (l : Listing) :
    Numbered ps l (bindSymbolsAll ps l).1 (bindSymbolsAll ps l).2.1 (bindSymbolsAll ps l).2.2 := by
  induction ps generalizing l with
  | nil => exact Numbered.nil l
  | cons p rest ih =>
      have hrest := ih (fun q hq => h q (List.mem_cons_of_mem p hq)) (p.bindSymbols l).2.2
      exact (h p List.mem_cons_self l).append hrest

/-- **The nodes of a plan without symbols are numbered on, and each gets a line.** -/
theorem numbered_bindSymbols (hp : p.Unbound) (l : Listing) :
    Numbered [p] l [(p.bindSymbols l).1] [(p.bindSymbols l).2.1] (p.bindSymbols l).2.2 := by
  induction p using induction_inputs generalizing l with
  | step p ih =>
      obtain ⟨hroot, hinputs⟩ := unbound_iff.mp hp
      rw [bindSymbols_of_unbound hroot]
      exact (numbered_bindSymbolsAll (fun q hq => ih q hq (hinputs q hq)) l).node hroot

/-! ### Plans that are listed alike -/

theorem bindNode_congr (h : p.short = q.short) (symbols : List String) (l : Listing) :
    (bindNode p symbols l).2 = (bindNode q symbols l).2 := by
  simp [bindNode, assignment, h]

theorem bindSymbolsAll_congr {ps qs : List Plan}
    (h : List.Forall₂ (fun p q => ∀ l, (bindSymbols p l).2 = (bindSymbols q l).2) ps qs)
    (l : Listing) : (bindSymbolsAll ps l).2 = (bindSymbolsAll qs l).2 := by
  induction h generalizing l with
  | nil => rfl
  | cons hpq _ ih => rw [bindSymbolsAll_cons, bindSymbolsAll_cons, hpq l, ih]

/-- Plans without symbols that have one bare form get the same symbols and the same lines. -/
theorem bindSymbols_congr (hbare : p.bare = q.bare) (hp : p.Unbound) (hq : q.Unbound) (l : Listing) :
    (p.bindSymbols l).2 = (q.bindSymbols l).2 := by
  induction p using induction_inputs generalizing q l with
  | step p ih =>
      obtain ⟨hproot, hpinputs⟩ := unbound_iff.mp hp
      obtain ⟨hqroot, hqinputs⟩ := unbound_iff.mp hq
      have hshort : p.short = q.short := by rw [← short_bare, hbare, short_bare]
      have hmaps : p.inputs.map bare = q.inputs.map bare := by rw [← inputs_bare, hbare, inputs_bare]
      have hinputs : List.Forall₂ (fun a b => ∀ l, (bindSymbols a l).2 = (bindSymbols b l).2)
          p.inputs q.inputs := by
        -- Both sides of a pair have to be inputs, as neither may have a symbol.
        rw [map_eq_map_iff_forall₂, List.forall₂_iff_zip] at hmaps
        refine List.forall₂_iff_zip.mpr ⟨hmaps.1, fun hab => ?_⟩
        obtain ⟨ha, hb⟩ := List.of_mem_zip hab
        exact ih _ ha (hmaps.2 hab) (hpinputs _ ha) (hqinputs _ hb)
      rw [bindSymbols_of_unbound hproot, bindSymbols_of_unbound hqroot, bindSymbolsAll_congr hinputs]
      apply bindNode_congr
      rw [short_withInputs, short_withInputs, hshort]

/-! ### Listings -/

/-- `listed` is the plan with a symbol at each node, and the text assigns the nodes one by one. -/
structure Assigns (p : Plan) (g : SymbolSource) (listed : Plan) (text : String) (after : SymbolSource) :
    Prop where
  plan : listed.unbind = p
  nodes : listed.postorder.map unbind = p.postorder
  text : text = "\n".intercalate (listed.postorder.map entry)
  symbol : ∀ k q, listed.postorder[k]? = some q →
    q.notes.bound = some (symbol g.stem (g.issued + (k + 1)))
  distinct : (listed.postorder.map symbolOf).Nodup
  earlier : InputsFirst listed.postorder
  source : after = g.advance p.size
  again : ∀ g', listed.explain g' = (listed, "", g')

theorem explain_eq (p : Plan) (g : SymbolSource) : p.explain g =
    ((p.bindSymbols ⟨g, []⟩).1, "\n".intercalate (p.bindSymbols ⟨g, []⟩).2.2.lines,
      (p.bindSymbols ⟨g, []⟩).2.2.source) := rfl

theorem assigns_explain (hp : p.Unbound) (g : SymbolSource) :
    Assigns p g (p.explain g).1 (p.explain g).2.1 (p.explain g).2.2 := by
  have h := numbered_bindSymbols hp ⟨g, []⟩
  rw [explain_eq]
  set listed := (p.bindSymbols ⟨g, []⟩).1
  have hplan : listed.unbind = p := List.singleton_inj.mp h.plans
  have hroot : listed.notes.bound = some (p.bindSymbols ⟨g, []⟩).2.1 := List.singleton_inj.mp h.roots
  have hpostorder : [listed].flatMap postorder = listed.postorder := List.flatMap_singleton ..
  have hsize : total ([p].map size) = p.size := rfl
  have hbound : listed.postorder.map (fun q => q.notes.bound) = (g.next p.size).map some := by
    rw [← hpostorder, h.nodes, hsize]
  refine ⟨hplan, ?_, ?_, ?_, ?_, inputsFirst_postorder listed, ?_, ?_⟩
  · rw [← postorder_map inputs_unbind, hplan]
  · rw [h.lines, hpostorder]
    rfl
  · intro k q hq
    have hget := congrArg (fun symbols => symbols[k]?) hbound
    simp only [List.getElem?_map, hq, Option.map_some] at hget
    obtain ⟨a, ha, hqa⟩ := Option.map_eq_some_iff.mp hget.symm
    rw [← hqa, eq_of_getElem?_next ha]
  · rw [map_symbolOf hbound]
    exact nodup_next g p.size
  · exact h.source
  · intro g'
    rw [explain_eq, bindSymbols_of_bound hroot]
    rfl

/-- Equal plans without symbols are listed alike if their fractions have the same signs. -/
theorem explain_congr (hp : p.Unbound) (hq : q.Unbound) (hsame : p.same q = true)
    (hsigns : p.floats.map Binary64.isNegative = q.floats.map Binary64.isNegative)
    (g : SymbolSource) : (p.explain g).2 = (q.explain g).2 := by
  rw [explain_eq, explain_eq, bindSymbols_congr (bare_eq_of_same hsame hsigns) hp hq]

/-- **The listing of a plan without symbols assigns each node once, after its inputs.** -/
theorem explain_assigns_once (hp : p.Unbound) (g : SymbolSource) :
    ∃ listed text after, p.explain g = (listed, text, after) ∧ Assigns p g listed text after ∧
      ∀ q, q.Unbound → p.same q = true →
        p.floats.map Binary64.isNegative = q.floats.map Binary64.isNegative →
        (q.explain after.reset).2.1 = (p.explain g.reset).2.1 ∧
          (g.issued = 0 → (q.explain after.reset).2.1 = text) := by
  have hassigns := assigns_explain hp g
  refine ⟨(p.explain g).1, (p.explain g).2.1, (p.explain g).2.2, rfl, hassigns, ?_⟩
  intro q hq hsame hsigns
  have hreset : (p.explain g).2.2.reset = g.reset := by
    rw [hassigns.source]
    rfl
  rw [hreset, explain_congr hp hq hsame hsigns]
  refine ⟨rfl, fun hissued => ?_⟩
  have hstart : g.reset = g := by
    rw [reset, ← hissued]
  rw [hstart, explain_congr hp hq hsame hsigns]

/-- A selection by zero, of either sign, over a cross product. -/
def selection (negative : Bool) (label : Option String) : Plan :=
  unary { label := label } (.select (.literal (.float (.zero negative))))
    (binary {} .crossProduct (leaf { label := label } .singleton) (leaf {} .singleton))

theorem unbound_selection (negative : Bool) (label : Option String) :
    (selection negative label).Unbound := by
  simp [Unbound, selection, postorder, postorderFrom, inputs, notes]

theorem floats_selection (negative : Bool) (label : Option String) :
    (selection negative label).floats = [.zero negative] := by
  simp [floats, selection, preorder, preorderFrom, inputs, exprs, Unary.exprs, Binary.exprs, Expr.floats]

theorem explain_assigns_once_selection :
    (selection true none).Unbound ∧ (selection true (some "s")).Unbound ∧
      (selection true none).same (selection true (some "s")) = true ∧
      ∃ listed text after, Assigns (selection true none) ⟨"T", 1⟩ listed text after ∧
        text = "T2 = SingletonRelation\nT3 = SingletonRelation\nT4 = CrossProduct[T2, T3]\n" ++
          "T5 = Select(-0)[T4]" ∧
        ((selection true (some "s")).explain after.reset).2.1 =
          ((selection true none).explain ⟨"T", 0⟩).2.1 := by
  have hsame : (selection true none).same (selection true (some "s")) = true := by decide +kernel
  have hsigns : (selection true none).floats.map Binary64.isNegative =
      (selection true (some "s")).floats.map Binary64.isNegative := by
    rw [floats_selection, floats_selection]
  obtain ⟨listed, text, after, hexplain, hassigns, hagain⟩ :=
    explain_assigns_once (unbound_selection true none) ⟨"T", 1⟩
  have htext : ((selection true none).explain ⟨"T", 1⟩).2.1 =
      "T2 = SingletonRelation\nT3 = SingletonRelation\nT4 = CrossProduct[T2, T3]\n" ++
        "T5 = Select(-0)[T4]" := by decide +kernel
  rw [hexplain] at htext
  have hq := unbound_selection true (some "s")
  exact ⟨unbound_selection true none, hq, hsame, listed, text, after, hassigns, htext,
    (hagain _ hq hsame hsigns).1⟩

/-- Equal plans may be listed differently: a listing shows the sign of a zero, and it starts where the
source of symbols has got to. -/
theorem explain_shows_sign_and_start :
    (selection false none).Unbound ∧ (selection true none).Unbound ∧
      (selection false none).same (selection true none) = true ∧
      ((selection true none).explain ((selection false none).explain ⟨"V", 0⟩).2.2.reset).2.1 ≠
        ((selection false none).explain ⟨"V", 0⟩).2.1 ∧
      (selection false none).same (selection false none) = true ∧
      ((selection false none).explain ((selection false none).explain ⟨"V", 1⟩).2.2.reset).2.1 ≠
        ((selection false none).explain ⟨"V", 1⟩).2.1 := by
  refine ⟨unbound_selection false none, unbound_selection true none, ?_, ?_, ?_, ?_⟩
  · decide +kernel
  · decide +kernel
  · decide +kernel
  · decide +kernel

end Plan

end Planner
