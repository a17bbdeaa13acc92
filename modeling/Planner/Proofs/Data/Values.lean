import Mathlib.Tactic.SplitIfs
import Planner.Data.Form

/-! # What is read from values

`Tree.isValue` holds of trees that are values throughout, such as a JSON value: without words,
mentions, tags and faulty parts, and with finite numbers.  `Keeps` says that what a decoder reads from
such a tree has some property, if it reads anything, and `Form.Keeps` says the same of records. -/

namespace Planner.Data

namespace Tree

mutual

/-- Whether a tree is a value throughout, with finite numbers. -/
def isValue : Tree → Bool
  | atom (.float x) => x.isFinite
  | atom _ => true
  | list items => allValues items
  | record fields => allFieldValues fields
  | _ => false

/-- Whether the items of a list are values. -/
def allValues : List Tree → Bool
  | [] => true
  | t :: rest => t.isValue && allValues rest

/-- Whether the names and fields of a record are values. -/
def allFieldValues : List (Tree × Tree) → Bool
  | [] => true
  | (name, t) :: rest => name.isValue && t.isValue && allFieldValues rest

end

theorem allValues_iff {items : List Tree} :
    allValues items = true ↔ ∀ t ∈ items, t.isValue = true := by
  induction items with
  | nil => simp [allValues]
  | cons t rest ih => simp [allValues, ih]

theorem allFieldValues_iff {fields : List (Tree × Tree)} :
    allFieldValues fields = true ↔
      ∀ field ∈ fields, field.1.isValue = true ∧ field.2.isValue = true := by
  induction fields with
  | nil => simp [allFieldValues]
  | cons field rest ih => simp [allFieldValues, ih]

end Tree

namespace Decoder

variable {σ α β : Type} {P : α → Prop} {Q : β → Prop} {x : Decoder σ α}

/-- What the decoder gets, if anything, has a property. -/
def Yields (x : Decoder σ α) (P : α → Prop) : Prop := ∀ d s a t, x d s = (some a, t) → P a

namespace Yields

theorem imp {P' : α → Prop} (h : Yields x P) (hP : ∀ a, P a → P' a) : Yields x P' :=
  fun d s a t hx => hP a (h d s a t hx)

theorem trivial (x : Decoder σ α) : Yields x (fun _ => True) := fun _ _ _ _ _ => True.intro

theorem pure {a : α} (h : P a) : Yields (pure a : Decoder σ α) P := by
  intro d s b t hx
  obtain rfl := Option.some.inj (Prod.mk.inj hx).1
  exact h

theorem fail : Yields (fail : Decoder σ α) P := by
  intro d s b t hx
  cases (Prod.mk.inj hx).1

theorem ofOption {o : Option α} (h : ∀ a, o = some a → P a) : Yields (ofOption o : Decoder σ α) P :=
  fun _ _ a _ hx => h a (Prod.mk.inj hx).1

theorem bind {f : α → Decoder σ β} (h : Yields x P) (hf : ∀ a, P a → Yields (f a) Q) :
    Yields (x >>= f) Q := by
  intro d s b u hx
  rw [bind_apply] at hx
  cases hfirst : x d s with
  | mk o t =>
      rw [hfirst] at hx
      cases o with
      | none => cases (Prod.mk.inj hx).1
      | some a => exact hf a (h d s a t hfirst) d t b u hx

theorem nested (h : Yields x P) : Yields (nested x) P := by
  intro d s a t hx
  unfold Decoder.nested at hx
  split at hx
  · cases (Prod.mk.inj hx).1
  · exact h _ s a t hx

/-- A value stands for itself. -/
theorem follow {v : Tree} (hv : v.isValue = true) : Yields (follow v : Decoder σ Tree) (· = v) := by
  intro d s a t hx
  cases v with
  | mention id => cases hv
  | _ => exact (Option.some.inj (Prod.mk.inj hx).1).symm

end Yields

end Decoder

open Decoder

/-! ### Trees -/

section Keeps

variable {σ α β : Type} {P : α → Prop} {Q : β → Prop} {read : Tree → Decoder σ α}

/-- What is read from a value, if anything, has a property. -/
def Keeps (read : Tree → Decoder σ α) (P : α → Prop) : Prop :=
  ∀ v : Tree, v.isValue = true → Yields (read v) P

namespace Keeps

theorem trivial (read : Tree → Decoder σ α) : Keeps read (fun _ => True) :=
  fun v _ => Yields.trivial (read v)

theorem bind {f : α → Decoder σ β} (h : Keeps read P) (hf : ∀ a, P a → Yields (f a) Q) :
    Keeps (fun t => read t >>= f) Q :=
  fun v hv => (h v hv).bind hf

/-- A value that is no list, record or word is an atom. -/
theorem value : Keeps (value : Tree → Decoder σ Atom) (fun a => (Tree.atom a).isValue = true) := by
  intro v hv
  refine (Yields.follow hv).bind (fun u hu => ?_)
  subst hu
  cases u with
  | atom a => exact Yields.ofOption (fun b hb => by obtain rfl := Option.some.inj hb; exact hv)
  | word w => cases hv
  | _ => exact Yields.fail

theorem each (h : Keeps read P) {items : List Tree} (hitems : ∀ v ∈ items, v.isValue = true) :
    Yields (each read items) (fun as => ∀ a ∈ as, P a) := by
  induction items with
  | nil => exact Yields.pure (by simp)
  | cons v rest ih =>
      refine (h v (hitems v List.mem_cons_self)).bind (fun a ha => ?_)
      refine (ih (fun u hu => hitems u (List.mem_cons_of_mem v hu))).bind (fun as has => ?_)
      exact Yields.pure (List.forall_mem_cons.mpr ⟨ha, has⟩)

theorem listOf (h : Keeps read P) : Keeps (listOf read) (fun as => ∀ a ∈ as, P a) := by
  intro v hv
  refine (Yields.follow hv).bind (fun u hu => ?_)
  subst hu
  cases u with
  | list items => exact Yields.nested (h.each (Tree.allValues_iff.mp hv))
  | tagged body => cases hv
  | word w => cases hv
  | _ => exact Yields.fail

theorem optional (h : Keeps read P) : Keeps (optional read) (fun o => ∀ a ∈ o, P a) := by
  intro v hv
  have hread : Yields (read v >>= fun a => pure (some a)) (fun o => ∀ a ∈ o, P a) :=
    (h v hv).bind (fun a ha => Yields.pure (by simpa using ha))
  refine (Yields.follow hv).bind (fun u hu => ?_)
  subst hu
  cases u with
  | atom a =>
      cases a with
      | null => exact Yields.pure (by simp)
      | _ => exact hread
  | word w => cases hv
  | _ => exact hread

theorem variant {bare : String → Decoder σ α} {full : String → Tree → Decoder σ α}
    (hbare : ∀ s, Yields (bare s) P) (hfull : ∀ tag, Keeps (full tag) P) :
    Keeps (variant bare full) P := by
  intro v hv
  refine (Yields.trivial document).bind (fun d _ => ?_)
  refine (Yields.follow hv).bind (fun u hu => ?_)
  subst hu
  cases u with
  | atom a =>
      cases a with
      | string s => exact hbare s
      | _ => exact Yields.fail
  | word w => cases hv
  | record fields =>
      cases fields with
      | nil => exact Yields.fail
      | cons field rest =>
          have hbody := (Tree.allFieldValues_iff.mp hv field List.mem_cons_self).2
          refine Yields.nested ?_
          split_ifs
          · exact Yields.fail
          · exact (Yields.trivial _).bind (fun tag _ =>
              (hfull tag _ hbody).bind (fun a ha => Yields.pure ha))
          · exact (Yields.trivial _).bind (fun _ _ => (Yields.trivial _).bind (fun _ _ => Yields.fail))
  | _ => exact Yields.fail

/-- A decoder that looks at the document before it reads. -/
theorem document {read : Document → Tree → Decoder σ α} (h : ∀ d, Keeps (read d) P) :
    Keeps (fun t => Decoder.document >>= fun d => read d t) P :=
  fun v hv => (Yields.trivial Decoder.document).bind (fun d _ => h d v hv)

end Keeps

end Keeps

/-! ### Records -/

namespace Form

variable {σ δ ε α β : Type} {f : Form σ δ α} {g : Form σ ε β} {P : α → Prop} {Q : β → Prop}

/-- What is read from fields that are values has a property, because of what holds of the fields read
so far. -/
structure Keeps (f : Form σ δ α) (I : δ → Prop) (P : α → Prop) : Prop where
  start : I f.start
  fill : ∀ name v b, v.isValue = true → I b → Yields (f.fill name v b) I
  finish : ∀ b a, I b → f.finish b = some a → P a

namespace Keeps

variable {I : δ → Prop} {J : ε → Prop}

theorem trivial (f : Form σ δ α) : Keeps f (fun _ => True) (fun _ => True) where
  start := True.intro
  fill _ _ _ _ _ := Yields.trivial _
  finish _ _ _ _ := True.intro

theorem field {name : String} {read : Tree → Decoder σ α} {missing : Option α} (h : Data.Keeps read P)
    (hmissing : ∀ a ∈ missing, P a) :
    Keeps (field name read missing) (fun o => ∀ a ∈ o, P a) P where
  start := by simp [Form.field]
  fill _ v b hv hb := by
    cases b with
    | some a => exact Yields.fail
    | none => exact (h v hv).bind (fun a ha => Yields.pure (by simpa using ha))
  finish b a hb ha := by
    cases b with
    | some c => exact hb a ha
    | none => exact hmissing a ha

theorem required {name : String} {read : Tree → Decoder σ α} (h : Data.Keeps read P) :
    Keeps (required name read) (fun o => ∀ a ∈ o, P a) P :=
  field h (by simp)

theorem optional {name : String} {read : Tree → Decoder σ α} (h : Data.Keeps read P) :
    Keeps (optional name read) (fun o => ∀ a ∈ o, ∀ b ∈ a, P b) (fun o => ∀ a ∈ o, P a) :=
  field h.optional (by simp)

theorem both (hf : Keeps f I P) (hg : Keeps g J Q) :
    Keeps (f.both g) (fun b => I b.1 ∧ J b.2) (fun a => P a.1 ∧ Q a.2) where
  start := ⟨hf.start, hg.start⟩
  fill name v b hv hb := by
    unfold Form.both
    dsimp only
    split_ifs
    · exact (hf.fill name v b.1 hv hb.1).bind (fun c hc => Yields.pure ⟨hc, hb.2⟩)
    · exact (hg.fill name v b.2 hv hb.2).bind (fun c hc => Yields.pure ⟨hb.1, hc⟩)
  finish b a hb ha := by
    obtain ⟨c, hc, ha⟩ := Option.bind_eq_some_iff.mp ha
    obtain ⟨e, he, ha⟩ := Option.bind_eq_some_iff.mp ha
    obtain rfl := Option.some.inj ha
    exact ⟨hf.finish b.1 c hb.1 hc, hg.finish b.2 e hb.2 he⟩

theorem map {h : α → β} (hf : Keeps f I P) (hP : ∀ a, P a → Q (h a)) : Keeps (f.map h) I Q where
  start := hf.start
  fill := hf.fill
  finish b c hb hc := by
    obtain ⟨a, ha, rfl⟩ := Option.map_eq_some_iff.mp hc
    exact hP a (hf.finish b a hb ha)

theorem fillFields (hf : Keeps f I P) (lenient : Bool) {fields : List (Tree × Tree)}
    (hfields : ∀ field ∈ fields, field.1.isValue = true ∧ field.2.isValue = true) {b : δ} (hb : I b) :
    Yields (f.fillFields lenient fields b) I := by
  induction fields generalizing b with
  | nil => exact Yields.pure hb
  | cons field rest ih =>
      have hrest {c : δ} (hc : I c) : Yields (f.fillFields lenient rest c) I :=
        ih (fun other h => hfields other (List.mem_cons_of_mem field h)) hc
      refine (Yields.trivial _).bind (fun name _ => ?_)
      split_ifs
      · have hfield := (hfields field List.mem_cons_self).2
        exact (hf.fill name field.2 b hfield hb).bind (fun c hc => hrest hc)
      · exact (Yields.trivial _).bind (fun _ _ => hrest hb)
      · exact Yields.fail

theorem fillItems (hf : Keeps f I P) {names : List String} {items : List Tree}
    (hitems : ∀ v ∈ items, v.isValue = true) {b : δ} (hb : I b) :
    Yields (f.fillItems names items b) I := by
  induction items generalizing names b with
  | nil => cases names <;> exact Yields.pure hb
  | cons v rest ih =>
      cases names with
      | nil => exact Yields.fail
      | cons name names =>
          refine (hf.fill name v b (hitems v List.mem_cons_self) hb).bind (fun c hc => ?_)
          exact ih (fun u hu => hitems u (List.mem_cons_of_mem v hu)) hc

theorem read (hf : Keeps f I P) (lenient listed : Bool) : Data.Keeps (f.read lenient listed) P := by
  intro v hv
  have hfinish {x : Decoder σ δ} (hx : Yields x I) : Yields (x >>= fun b => ofOption (f.finish b)) P :=
    hx.bind (fun b hb => Yields.ofOption (fun a ha => hf.finish b a hb ha))
  refine (Yields.follow hv).bind (fun u hu => ?_)
  subst hu
  cases u with
  | record fields =>
      exact Yields.nested (hfinish (hf.fillFields lenient (Tree.allFieldValues_iff.mp hv) hf.start))
  | list items =>
      dsimp only
      split_ifs
      · exact Yields.nested (hfinish (hf.fillItems (Tree.allValues_iff.mp hv) hf.start))
      · exact Yields.fail
  | tagged body => cases hv
  | word w => cases hv
  | _ => exact Yields.fail

theorem record (hf : Keeps f I P) (lenient : Bool) : Data.Keeps (f.record lenient) P :=
  Data.Keeps.document (fun d => hf.read lenient d.layout.listedRecords)

theorem body (hf : Keeps f I P) (lenient : Bool) : Data.Keeps (f.body lenient) P :=
  Data.Keeps.document (fun d => hf.read lenient d.layout.listedVariants)

end Keeps

end Form

end Planner.Data
