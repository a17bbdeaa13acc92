import Planner.Expr.Coding
import Planner.Proofs.Data.Reading
import Planner.Proofs.Data.Values
import Planner.Proofs.Plan.Equality
import Planner.Proofs.RelationKey

/-! # Reading back schemes and expressions

What is written as a tree is read back as it was: types, columns, schemes, references, constants,
expressions (`Expr.reads_toTree`), and keys that are written as keys.  The expressions that are read
from values have finite constants (`Expr.keeps_floats`); the only number that reading makes up is the
one nearest to an integer of sixty-four bits, which is finite (`Binary64.isFinite_ofInt`). -/

namespace Planner

open Planner.Data

variable {σ : Type} {n : ℕ}

/-! ### Schemes and keys -/

theorem ColumnType.reads_toTree (t : ColumnType) :
    Reads n (ofTree : Tree → Decoder σ ColumnType) t.toTree (· = t) :=
  Reads.named (ofCode?_code t)

theorem Column.reads_toTree (c : Column) :
    Reads n (ofTree : Tree → Decoder σ Column) c.toTree (· = c) := by
  refine Form.Fills.record true (fun m _ => ?_)
  refine ((Form.Fills.optional_text "name" c.name).both
    (Form.Fills.field (ColumnType.reads_toTree c.type)) (by simp)).map ?_
  rintro ⟨name, type⟩ ⟨rfl, rfl⟩
  rfl

theorem Scheme.reads_toTree (s : Scheme) :
    Reads n (ofTree : Tree → Decoder σ Scheme) s.toTree (· = s) := by
  have hcolumns : Reads n (Decoder.listOf (Column.ofTree : Tree → Decoder σ Column)) s.toTree
      (· = s.columns) := Reads.listOf_eq (fun m _ c _ => c.reads_toTree)
  refine hcolumns.bind (fun columns h d => Decoder.Gives.pure ?_)
  rw [h]

theorem RelationKey.reads_toTree {k : RelationKey} (h : ∃ s, parse? s = some k) :
    Reads n (ofTree : Tree → Decoder σ RelationKey) k.toTree (· = k) := by
  obtain ⟨s, hs⟩ := h
  refine (Reads.text k.text).bind (fun t ht d => Decoder.Gives.ofOption ?_ rfl)
  rw [ht]
  exact parse?_text hs

/-- A key that is read is one that can be read. -/
theorem RelationKey.keeps_parse? : Keeps (ofTree : Tree → Decoder σ RelationKey)
    (fun k => ∃ s, parse? s = some k) :=
  (Keeps.trivial _).bind (fun s _ => Decoder.Yields.ofOption (fun _ hk => ⟨s, hk⟩))

theorem ColumnRef.ofAtom?_position (index : UInt64) :
    ofAtom? (.int index.toNat) = some (position index) := by
  have h : (index.toNat : Int) < (twoTo 64 : Int) := Int.ofNat_lt.mpr index.toNat_lt
  simp [ofAtom?, h]

theorem ColumnRef.reads_toTree (r : ColumnRef) :
    Reads n (ofTree : Tree → Decoder σ ColumnRef) r.toTree (· = r) := by
  cases r with
  | position index =>
      refine (Reads.value _).bind (fun a ha d => Decoder.Gives.ofOption ?_ rfl)
      rw [ha]
      exact ofAtom?_position index
  | name text =>
      refine (Reads.value _).bind (fun a ha d => Decoder.Gives.ofOption ?_ rfl)
      rw [ha]
      rfl

theorem reads_word64 (w : UInt64) :
    Reads n (word64 : Tree → Decoder σ UInt64) (.nat w.toNat) (· = w) := by
  refine (Reads.nat w.toNat_lt).bind (fun m hm d => Decoder.Gives.pure ?_)
  rw [hm, UInt64.ofNat_toNat]

/-! ### Expressions -/

theorem Literal.ofAtom?_integer (i : Int64) : ofAtom? (.int i.toInt) = some (integer i) := by
  have hlower : -(twoTo 63 : Int) ≤ i.toInt := i.le_toInt
  have hupper : i.toInt < (twoTo 63 : Int) := i.toInt_lt
  simp [ofAtom?, hlower, hupper]

theorem Literal.reads_toTree (l : Literal) :
    Reads n (ofTree : Tree → Decoder σ Literal) l.toTree (· = l) := by
  cases l with
  | integer i =>
      refine (Reads.value _).bind (fun a ha d => Decoder.Gives.ofOption ?_ rfl)
      rw [ha]
      exact ofAtom?_integer i
  | _ =>
      refine (Reads.value _).bind (fun a ha d => Decoder.Gives.ofOption ?_ rfl)
      rw [ha]
      rfl

theorem UnaryOp.ofCode?_code (op : UnaryOp) : ofCode? op.code = some op := by cases op <;> rfl

theorem BinaryOp.ofCode?_code (op : BinaryOp) : ofCode? op.code = some op := by cases op <;> rfl

theorem AggregateFunc.ofCode?_code (f : AggregateFunc) : ofCode? f.code = some f := by
  cases f <;> rfl

namespace Expr

theorem isPresent_toTree (e : Expr) : e.toTree.isPresent = true := by
  cases e <;> rfl

theorem reads_decode (e : Expr) {fuel : ℕ} (h : n < fuel) :
    Reads n (decode fuel : Tree → Decoder σ Expr) e.toTree (· = e) := by
  -- An operand stands two levels further down and is read with one level less to go.
  induction e generalizing n fuel with
  | attr ref =>
      obtain ⟨k, rfl⟩ := Nat.exists_eq_add_of_lt h
      refine Reads.variant (fun m hm => ?_)
      refine ref.reads_toTree.bind (fun r hr d => Decoder.Gives.pure ?_)
      rw [hr]
  | literal value =>
      obtain ⟨k, rfl⟩ := Nat.exists_eq_add_of_lt h
      refine Reads.variant (fun m hm => ?_)
      refine value.reads_toTree.bind (fun l hl d => Decoder.Gives.pure ?_)
      rw [hl]
  | unary op e ih =>
      obtain ⟨k, rfl⟩ := Nat.exists_eq_add_of_lt h
      refine Reads.variant (fun m hm => ?_)
      refine (Form.Fills.body true fun j hj => (Form.Fills.field (Reads.named op.ofCode?_code)).both
        (Form.Fills.field (ih (show j < n + k by omega))) (by simp)).bind ?_
      rintro ⟨_, _⟩ ⟨rfl, rfl⟩ d
      exact Decoder.Gives.pure rfl
  | binary op left right ihl ihr =>
      obtain ⟨k, rfl⟩ := Nat.exists_eq_add_of_lt h
      refine Reads.variant (fun m hm => ?_)
      refine (Form.Fills.body true fun j hj => (Form.Fills.field (Reads.named op.ofCode?_code)).both
        ((Form.Fills.field (ihl (show j < n + k by omega))).both
          (Form.Fills.field (ihr (show j < n + k by omega))) (by simp)) (by simp)).bind ?_
      rintro ⟨_, _, _⟩ ⟨rfl, rfl, rfl⟩ d
      exact Decoder.Gives.pure rfl
  | aggregate func e ih =>
      obtain ⟨k, rfl⟩ := Nat.exists_eq_add_of_lt h
      refine Reads.variant (fun m hm => ?_)
      refine (Form.Fills.body true fun j hj => (Form.Fills.field (Reads.named func.ofCode?_code)).both
        (Form.Fills.optional e.isPresent_toTree (ih (show j < n + k by omega))) (by simp)).bind ?_
      rintro ⟨_, _⟩ ⟨rfl, _, rfl, rfl⟩ d
      exact Decoder.Gives.pure rfl
  | tally func =>
      obtain ⟨k, rfl⟩ := Nat.exists_eq_add_of_lt h
      refine Reads.variant (fun m hm => ?_)
      refine (Form.Fills.body true fun j hj => (Form.Fills.field (Reads.named func.ofCode?_code)).both
        Form.Fills.optional_none (by simp)).bind ?_
      rintro ⟨_, _⟩ ⟨rfl, rfl⟩ d
      exact Decoder.Gives.pure rfl

/-- **An expression is read back as it was written.** -/
theorem reads_toTree (e : Expr) : Reads n (ofTree : Tree → Decoder σ Expr) e.toTree (· = e) :=
  fun d hfits _ => Decoder.Gives.document
    (reads_decode e (Nat.lt_succ_self d.levels) d hfits (Nat.le_refl d.levels))

end Expr

/-! ### Numbers made of integers -/

namespace Binary64

theorem scaleFor_one {m : ℕ} (hlower : twoTo 63 ≤ m) (hupper : m < twoTo 64) : scaleFor m 1 = 11 := by
  have hpos : 0 < twoTo 63 := by decide
  have hlog : m.log2 = 63 := (Nat.log2_eq_iff (by omega)).mpr ⟨hlower, hupper⟩
  have hone : (1 : ℕ).log2 = 0 := by decide
  have hguess : ((63 : ℕ) : Int) - ((0 : ℕ) : Int) - 52 = 11 := by decide
  have hfits : 1 * twoTo 52 * twoTo (11 : Int).toNat ≤ m := hlower
  unfold scaleFor
  rw [hlog, hone, hguess]
  simp only [show ¬ (11 : Int) < 0 by decide, if_false, hfits, if_true]

theorem roundDiv_le (num den : ℕ) : roundDiv num den ≤ num / den + 1 := by
  unfold roundDiv
  dsimp only
  split <;> omega

theorem isFinite_ofMagnitude {m : ℕ} (h : m < infinityMagnitude) :
    (ofMagnitude false m).isFinite = true := by
  have hinfinity : infinityMagnitude = 2047 * 4503599627370496 := rfl
  have hbits : (UInt64.ofNat m).toNat = m := UInt64.toNat_ofNat_of_lt' (by simp [UInt64.size]; omega)
  have hfraction : twoTo 52 = 4503599627370496 := rfl
  have hexponent : twoTo 11 = 2048 := rfl
  simp only [isFinite, exponentField, ofMagnitude, Bool.false_eq_true, if_false, hbits, hfraction,
    hexponent, bne_iff_ne]
  omega

/-- The number nearest to an integer that needs sixty-four bits is finite. -/
theorem isFinite_nearest {m : ℕ} (hlower : twoTo 63 ≤ m) (hupper : m < twoTo 64) :
    (nearest false m 1).isFinite = true := by
  have hpos : 0 < twoTo 63 := by decide
  have hscale : max (scaleFor m 1) (-1074) = 11 := by
    rw [scaleFor_one hlower hupper]
    decide
  have hround := roundDiv_le m 2048
  have hpow : 1 * twoTo (11 : Int).toNat = 2048 := rfl
  have hexponent : ((11 : Int) + 1074).toNat = 1085 := rfl
  have hfraction : twoTo 52 = 4503599627370496 := rfl
  have hinfinity : infinityMagnitude = 2047 * 4503599627370496 := rfl
  have hbound : twoTo 64 = 18446744073709551616 := rfl
  unfold nearest
  rw [if_neg (by omega)]
  dsimp only
  rw [hscale, if_neg (by decide), hpow, hexponent, hfraction, hinfinity]
  apply isFinite_ofMagnitude
  rw [hinfinity]
  omega

theorem isFinite_ofInt {i : Int} (hlower : (twoTo 63 : Int) ≤ i) (hupper : i < (twoTo 64 : Int)) :
    (ofInt i).isFinite = true := by
  have hsign : decide (i < 0) = false := by
    simp only [decide_eq_false_iff_not]
    omega
  rw [ofInt, hsign]
  exact isFinite_nearest (by omega) (by omega)

end Binary64

/-! ### Expressions read from values -/

theorem Literal.isFinite_ofAtom? {a : Atom} {x : Binary64} (ha : (Tree.atom a).isValue = true)
    (h : ofAtom? a = some (float x)) : x.isFinite = true := by
  cases a with
  | null => cases h
  | bool b => cases h
  | string s => cases h
  | float y =>
      obtain rfl := Literal.float.inj (Option.some.inj h)
      exact ha
  | int i =>
      unfold ofAtom? at h
      dsimp only at h
      split_ifs at h with hint hbig
      · cases h
      · obtain rfl := Literal.float.inj (Option.some.inj h)
        simp only [Bool.and_eq_true, decide_eq_true_eq, not_and] at hint hbig
        have hlower : (twoTo 63 : Int) ≤ i := Int.not_lt.mp (hint (by omega))
        exact Binary64.isFinite_ofInt hlower hbig.2

theorem Literal.keeps_floats : Keeps (ofTree : Tree → Decoder σ Literal)
    (fun l => ∀ x ∈ (Expr.literal l).floats, x.isFinite = true) := by
  refine Keeps.value.bind (fun a ha => Decoder.Yields.ofOption (fun l hl => ?_))
  cases l with
  | float y =>
      intro x hx
      obtain rfl := List.mem_singleton.mp hx
      exact isFinite_ofAtom? ha hl
  | _ => exact fun x hx => absurd hx List.not_mem_nil

namespace Expr

theorem keeps_ofBody {expr : Tree → Decoder σ Expr}
    (h : Keeps expr (fun e => ∀ x ∈ e.floats, x.isFinite = true)) (tag : String) :
    Keeps (ofBody expr tag) (fun e => ∀ x ∈ e.floats, x.isFinite = true) := by
  unfold ofBody
  split
  · exact (Keeps.trivial _).bind (fun r _ => Decoder.Yields.pure (by simp [floats]))
  · exact Literal.keeps_floats.bind (fun l hl => Decoder.Yields.pure hl)
  · refine ((Form.Keeps.required (Keeps.trivial _)).both (Form.Keeps.required h)).body true |>.bind ?_
    exact fun _ ha => Decoder.Yields.pure ha.2
  · refine ((Form.Keeps.required (Keeps.trivial _)).both
      ((Form.Keeps.required h).both (Form.Keeps.required h))).body true |>.bind ?_
    exact fun _ ha => Decoder.Yields.pure (List.forall_mem_append.mpr ha.2)
  · refine ((Form.Keeps.required (Keeps.trivial _)).both (Form.Keeps.optional h)).body true |>.bind ?_
    rintro ⟨func, _ | e⟩ ⟨_, he⟩
    · exact Decoder.Yields.pure (by simp [floats])
    · exact Decoder.Yields.pure (he e rfl)
  · exact fun _ _ => Decoder.Yields.fail

theorem keeps_decode (fuel : ℕ) :
    Keeps (decode fuel : Tree → Decoder σ Expr) (fun e => ∀ x ∈ e.floats, x.isFinite = true) := by
  induction fuel with
  | zero => exact fun _ _ => Decoder.Yields.fail
  | succ fuel ih => exact Keeps.variant (fun _ => Decoder.Yields.fail) (keeps_ofBody ih)

/-- **An expression that is read from a value has finite constants.** -/
theorem keeps_floats :
    Keeps (ofTree : Tree → Decoder σ Expr) (fun e => ∀ x ∈ e.floats, x.isFinite = true) :=
  Keeps.document (fun d => keeps_decode (d.levels + 1))

end Expr

end Planner
