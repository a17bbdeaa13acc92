import Mathlib.Data.List.Forall2
import Planner.Data.Form

/-! # Reading what was written

`Decoder.Gives` says that a decoder gets a value with some property, whatever it starts from, and
`Reads` that it gets one from a tree, in every document in which the tree fits.  `Form.Fills` says the
same of the fields of a record.  There is one lemma for each way of putting decoders and forms
together, so that reading back a type of values follows the recursion with which they are written. -/

namespace Planner.Data

/-! ### Depth -/

namespace Tree

variable {t : Tree} {items : List Tree} {fields : List (String × Tree)}

theorem depth_le_depthItems (h : t ∈ items) : t.depth ≤ depthItems items := by
  induction items with
  | nil => cases h
  | cons head rest ih =>
      rw [depthItems]
      rcases List.mem_cons.mp h with rfl | h
      · exact Nat.le_max_left _ _
      · exact Nat.le_trans (ih h) (Nat.le_max_right _ _)

theorem depth_lt_list (h : t ∈ items) : t.depth < (list items).depth :=
  Nat.lt_succ_of_le (depth_le_depthItems h)

theorem depth_lt_ofFields {name : String} (h : (name, t) ∈ fields) :
    t.depth < (ofFields fields).depth := by
  rw [ofFields, depth, Nat.lt_succ_iff]
  induction fields with
  | nil => cases h
  | cons head rest ih =>
      rw [List.map_cons, depthFields]
      rcases List.mem_cons.mp h with rfl | h
      · exact Nat.le_max_left _ _
      · exact Nat.le_trans (ih h) (Nat.le_max_right _ _)

/-- Whether a tree is a value of its own that is not the missing one. -/
def isPresent : Tree → Bool
  | atom .null => false
  | word _ => false
  | mention _ => false
  | _ => true

end Tree

namespace Decoder

variable {σ α β : Type} {d : Document} {P : α → Prop} {Q : β → Prop}

theorem bind_bind {γ : Type} (x : Decoder σ α) (f : α → Decoder σ β) (g : β → Decoder σ γ) :
    (x >>= f) >>= g = x >>= fun a => f a >>= g := by
  funext d s
  rw [bind_apply, bind_apply, bind_apply]
  cases x d s with
  | mk a t =>
      cases a with
      | none => rfl
      | some a => rfl

/-- The decoder gets a value with a property, whatever was read before. -/
def Gives (x : Decoder σ α) (d : Document) (P : α → Prop) : Prop :=
  ∀ s, ∃ a t, x d s = (some a, t) ∧ P a

namespace Gives

variable {x : Decoder σ α} {a : α}

theorem imp {P' : α → Prop} (h : Gives x d P) (hP : ∀ a, P a → P' a) : Gives x d P' := by
  intro s
  obtain ⟨a, t, hx, ha⟩ := h s
  exact ⟨a, t, hx, hP a ha⟩

theorem pure (h : P a) : Gives (pure a : Decoder σ α) d P :=
  fun s => ⟨a, s, rfl, h⟩

theorem ofOption {o : Option α} (ho : o = some a) (h : P a) : Gives (ofOption o : Decoder σ α) d P :=
  fun s => ⟨a, s, by rw [ho]; rfl, h⟩

theorem bind {f : α → Decoder σ β} (h : Gives x d P) (hf : ∀ a, P a → Gives (f a) d Q) :
    Gives (x >>= f) d Q := by
  intro s
  obtain ⟨a, t, hx, ha⟩ := h s
  obtain ⟨b, u, hb, hQ⟩ := hf a ha t
  refine ⟨b, u, ?_, hQ⟩
  rw [bind_apply, hx]
  exact hb

theorem document {f : Document → Decoder σ α} (h : Gives (f d) d P) : Gives (document >>= f) d P :=
  fun s => h s

/-- Inside a list or record there is one level less. -/
theorem nested (hd : 0 < d.levels) (h : Gives x { d with levels := d.levels - 1 } P) :
    Gives (nested x) d P := by
  intro s
  obtain ⟨a, t, hx, ha⟩ := h s
  refine ⟨a, t, ?_, ha⟩
  obtain ⟨n, hn⟩ : ∃ n, d.levels = n + 1 := ⟨d.levels - 1, by omega⟩
  simp only [hn, Nat.add_sub_cancel] at hx
  simp only [Decoder.nested, hn]
  exact hx

theorem each {read : Tree → Decoder σ α} {write : β → Tree} {R : β → α → Prop} {bs : List β}
    (h : ∀ b ∈ bs, Gives (read (write b)) d (R b)) :
    Gives (each read (bs.map write)) d (List.Forall₂ R bs) := by
  induction bs with
  | nil => exact pure List.Forall₂.nil
  | cons b rest ih =>
      refine bind (h b List.mem_cons_self) (fun a ha => ?_)
      refine bind (ih (fun c hc => h c (List.mem_cons_of_mem b hc))) (fun as has => ?_)
      exact pure (List.Forall₂.cons ha has)

end Gives

end Decoder

open Decoder

/-! ### Trees -/

section Reads

variable {σ α β : Type} {n : ℕ} {t : Tree} {P : α → Prop} {Q : β → Prop}
  {read : Tree → Decoder σ α}

/-- From a tree that fits into the levels of a document, which are at most `n`, a value with a property
is read. -/
def Reads (n : ℕ) (read : Tree → Decoder σ α) (t : Tree) (P : α → Prop) : Prop :=
  ∀ d : Document, t.depth ≤ d.levels → d.levels ≤ n → Gives (read t) d P

namespace Reads

theorem imp {P' : α → Prop} (h : Reads n read t P) (hP : ∀ a, P a → P' a) : Reads n read t P' :=
  fun d hfits hn => (h d hfits hn).imp hP

theorem bind {f : α → Decoder σ β} (h : Reads n read t P) (hf : ∀ a, P a → ∀ d, Gives (f a) d Q) :
    Reads n (fun t => read t >>= f) t Q :=
  fun d hfits hn => (h d hfits hn).bind (fun a ha => hf a ha d)

theorem text (s : String) : Reads n (text : Tree → Decoder σ String) (.string s) (· = s) :=
  fun _ _ _ => Gives.ofOption rfl rfl

theorem value (a : Atom) : Reads n (value : Tree → Decoder σ Atom) (.atom a) (· = a) :=
  fun _ _ _ => Gives.ofOption rfl rfl

theorem nat {m bound : ℕ} (h : m < bound) :
    Reads n (nat bound : Tree → Decoder σ ℕ) (.nat m) (· = m) := by
  intro d _ _
  refine Gives.bind (P := (· = m)) (Gives.ofOption rfl rfl) (fun k hk => ?_)
  subst hk
  rw [if_pos h]
  exact Gives.pure rfl

/-- A list is read back if each of its values is. -/
theorem listOf {write : β → Tree} {R : β → α → Prop} {bs : List β}
    (h : ∀ m, n = m + 1 → ∀ b ∈ bs, Reads m read (write b) (R b)) :
    Reads n (listOf read) (.list (bs.map write)) (List.Forall₂ R bs) := by
  intro d hfits hn
  have hpos : 0 < d.levels := Nat.lt_of_lt_of_le (Nat.succ_pos _) hfits
  refine Gives.nested hpos (Gives.each fun b hb => ?_)
  have hdepth := Tree.depth_lt_list (List.mem_map_of_mem (f := write) hb)
  refine h (n - 1) (by omega) b hb _ ?_ ?_
  · show (write b).depth ≤ d.levels - 1
    omega
  · show d.levels - 1 ≤ n - 1
    omega

/-- A list whose values are read back as ones with the same image is read back as such. -/
theorem listOf_map {γ : Type} {write : α → Tree} {f : α → γ} {as : List α}
    (h : ∀ m, n = m + 1 → ∀ a ∈ as, Reads m read (write a) (fun b => f b = f a)) :
    Reads n (Decoder.listOf read) (.list (as.map write)) (fun bs => bs.map f = as.map f) := by
  refine (listOf (R := fun a b => f b = f a) h).imp (fun bs hbs => ?_)
  induction hbs with
  | nil => rfl
  | cons hab _ ih =>
      rw [List.map_cons, List.map_cons, hab, ih (fun m hm a ha => h m hm a (List.mem_cons_of_mem _ ha))]

/-- A list whose values are read back as they are is read back as it is. -/
theorem listOf_eq {write : α → Tree} {as : List α}
    (h : ∀ m, n = m + 1 → ∀ a ∈ as, Reads m read (write a) (· = a)) :
    Reads n (Decoder.listOf read) (.list (as.map write)) (· = as) :=
  (listOf_map (f := id) h).imp (fun bs hbs => by simpa using hbs)

theorem variant_string {bare : String → Decoder σ α} {full : String → Tree → Decoder σ α} {s : String}
    (h : ∀ d, Gives (bare s) d P) : Reads n (variant bare full) (.string s) P :=
  fun d _ _ => h d

theorem variant {bare : String → Decoder σ α} {full : String → Tree → Decoder σ α} {tag : String}
    {body : Tree} (h : ∀ m, n = m + 1 → Reads m (full tag) body P) :
    Reads n (variant bare full) (.ofFields [(tag, body)]) P := by
  intro d hfits hn
  have hbody : body.depth < (Tree.ofFields [(tag, body)]).depth :=
    Tree.depth_lt_ofFields List.mem_cons_self
  have hread : Gives (full tag body) { d with levels := d.levels - 1 } P := by
    refine h (n - 1) (by omega) _ ?_ ?_
    · show body.depth ≤ d.levels - 1
      omega
    · show d.levels - 1 ≤ n - 1
      omega
  have hsized : (d.layout.sized && !([] : List (Tree × Tree)).isEmpty) = false := by simp
  have hopen : Gives (if d.layout.sized && !([] : List (Tree × Tree)).isEmpty then fail else
      full tag body >>= fun a => if ([] : List (Tree × Tree)).isEmpty then pure a else fail)
      { d with levels := d.levels - 1 } P := by
    rw [hsized]
    exact hread.bind (fun a ha => Gives.pure ha)
  exact Gives.nested (by omega) hopen

theorem named {ofName? : String → Option α} {s : String} {a : α} (h : ofName? s = some a) :
    Reads n (named ofName? : Tree → Decoder σ α) (.string s) (· = a) :=
  variant_string (fun _ => Gives.ofOption h rfl)

theorem optional (ht : t.isPresent = true) (h : Reads n read t P) :
    Reads n (optional read) t (fun o => ∃ a, o = some a ∧ P a) := by
  intro d hfits hn
  have hsome : Gives (read t >>= fun a => pure (some a)) d (fun o => ∃ a, o = some a ∧ P a) :=
    (h d hfits hn).bind (fun a ha => Gives.pure ⟨a, rfl, ha⟩)
  cases t with
  | atom value =>
      cases value with
      | null => cases ht
      | _ => exact hsome
  | word _ => cases ht
  | mention _ => cases ht
  | _ => exact hsome

end Reads

end Reads

/-! ### Records -/

namespace Form

variable {σ δ ε α β : Type} {f : Form σ δ α} {g : Form σ ε β} {n : ℕ}
  {fields fs gs : List (String × Tree)} {P : α → Prop} {Q : β → Prop}

@[simp] theorem names_field (name : String) (read : Tree → Decoder σ α) (missing : Option α) :
    (field name read missing).names = [name] := rfl

@[simp] theorem names_required (name : String) (read : Tree → Decoder σ α) :
    (required name read).names = [name] := rfl

@[simp] theorem names_optional (name : String) (read : Tree → Decoder σ α) :
    (optional name read).names = [name] := rfl

@[simp] theorem names_both : (f.both g).names = f.names ++ g.names := rfl

/-- Reads fields whose names are known, one after the other. -/
def fillNamed (f : Form σ δ α) : List (String × Tree) → δ → Decoder σ δ
  | [], b => pure b
  | (name, t) :: rest, b => do
    let b ← f.fill name t b
    fillNamed f rest b

theorem fillFields_eq_fillNamed (lenient : Bool) (h : ∀ field ∈ fields, field.1 ∈ f.names) (b : δ) :
    f.fillFields lenient (fields.map (fun g => (Tree.string g.1, g.2))) b = f.fillNamed fields b := by
  induction fields generalizing b with
  | nil => rfl
  | cons field rest ih =>
      have hrest := ih (fun g hg => h g (List.mem_cons_of_mem field hg))
      have hname : f.names.contains field.1 = true :=
        List.contains_iff_mem.mpr (h field List.mem_cons_self)
      have htext (k : String → Decoder σ δ) : text (.string field.1) >>= k = k field.1 := rfl
      rw [List.map_cons, fillFields, htext, if_pos hname, fillNamed]
      simp only [hrest]

theorem fillNamed_append (fs gs : List (String × Tree)) (b : δ) :
    f.fillNamed (fs ++ gs) b = f.fillNamed fs b >>= f.fillNamed gs := by
  induction fs generalizing b with
  | nil => rfl
  | cons field fs ih =>
      rw [List.cons_append, fillNamed, fillNamed, bind_bind]
      simp only [ih]

/-- The fields of the first form leave what was read of the second one. -/
theorem fillNamed_both_left (h : ∀ field ∈ fs, field.1 ∈ f.names) (b : δ) (e : ε) :
    (f.both g).fillNamed fs (b, e) = f.fillNamed fs b >>= fun b => pure (b, e) := by
  induction fs generalizing b with
  | nil => rfl
  | cons field fs ih =>
      have hname : f.names.contains field.1 = true :=
        List.contains_iff_mem.mpr (h field List.mem_cons_self)
      have hrest := ih (fun g hg => h g (List.mem_cons_of_mem field hg))
      have hfill : (f.both g).fill field.1 field.2 (b, e) =
          f.fill field.1 field.2 b >>= fun b => pure (b, e) := if_pos hname
      rw [fillNamed, fillNamed, hfill, bind_bind, bind_bind]
      exact congrArg _ (funext hrest)

/-- The fields of the second form leave what was read of the first one. -/
theorem fillNamed_both_right (h : ∀ field ∈ gs, field.1 ∉ f.names) (b : δ) (e : ε) :
    (f.both g).fillNamed gs (b, e) = g.fillNamed gs e >>= fun e => pure (b, e) := by
  induction gs generalizing e with
  | nil => rfl
  | cons field gs ih =>
      have hname : ¬ f.names.contains field.1 = true :=
        fun hmem => h field List.mem_cons_self (List.contains_iff_mem.mp hmem)
      have hrest := ih (fun g hg => h g (List.mem_cons_of_mem field hg))
      have hfill : (f.both g).fill field.1 field.2 (b, e) =
          g.fill field.1 field.2 e >>= fun e => pure (b, e) := if_neg hname
      rw [fillNamed, fillNamed, hfill, bind_bind, bind_bind]
      exact congrArg _ (funext hrest)

theorem fillNamed_map (h : α → β) (fields : List (String × Tree)) (b : δ) :
    (f.map h).fillNamed fields b = f.fillNamed fields b := by
  induction fields generalizing b with
  | nil => rfl
  | cons field rest ih =>
      rw [fillNamed, fillNamed]
      exact congrArg _ (funext ih)

/-- From fields that fit into the levels of a document, which are at most `n`, a value with a property
is read. -/
structure Fills (n : ℕ) (f : Form σ δ α) (fields : List (String × Tree)) (P : α → Prop) : Prop where
  known : ∀ field ∈ fields, field.1 ∈ f.names
  gives : ∀ d : Document, (∀ field ∈ fields, field.2.depth ≤ d.levels) → d.levels ≤ n →
    Gives (f.fillNamed fields f.start) d (fun b => ∃ a, f.finish b = some a ∧ P a)

namespace Fills

theorem imp {P' : α → Prop} (hf : Fills n f fields P) (hP : ∀ a, P a → P' a) : Fills n f fields P' where
  known := hf.known
  gives d hfits hn := (hf.gives d hfits hn).imp (fun _ ⟨a, ha, haP⟩ => ⟨a, ha, hP a haP⟩)

theorem field {name : String} {read : Tree → Decoder σ α} {missing : Option α} {t : Tree}
    (h : Reads n read t P) : Fills n (field name read missing) [(name, t)] P where
  known := by simp
  gives d hfits hn := by
    have hread := h d (hfits _ List.mem_cons_self) hn
    exact Gives.bind (hread.bind fun a ha => Gives.pure ⟨a, rfl, ha⟩) (fun b hb => Gives.pure hb)

theorem missing {name : String} {read : Tree → Decoder σ α} {a : α} (h : P a) :
    Fills n (Form.field name read (some a)) [] P where
  known := by simp
  gives d _ _ := Gives.pure ⟨a, rfl, h⟩

theorem optional {name : String} {read : Tree → Decoder σ α} {t : Tree} (ht : t.isPresent = true)
    (h : Reads n read t P) :
    Fills n (optional name read) [(name, t)] (fun o => ∃ a, o = some a ∧ P a) :=
  field (h.optional ht)

theorem optional_none {name : String} {read : Tree → Decoder σ α} :
    Fills n (Form.optional name read) [] (· = none) :=
  missing rfl

/-- A field that may be left out and is read back as it was written. -/
theorem optional_eq {name : String} {read : Tree → Decoder σ α} {t : Tree} {a : α}
    (ht : t.isPresent = true) (h : Reads n read t (· = a)) :
    Fills n (Form.optional name read) [(name, t)] (· = some a) :=
  (optional ht h).imp (by simp)

/-- A text that may be left out is written only if it is there. -/
theorem optional_text (name : String) (text : Option String) :
    Fills n (Form.optional name (Decoder.text : Tree → Decoder σ String))
      (match text with | some s => [(name, .string s)] | none => []) (· = text) := by
  cases text with
  | none => exact optional_none
  | some s => exact optional_eq rfl (Reads.text s)

theorem both (hf : Fills n f fs P) (hg : Fills n g gs Q) (hnames : ∀ name ∈ g.names, name ∉ f.names) :
    Fills n (f.both g) (fs ++ gs) (fun ab => P ab.1 ∧ Q ab.2) where
  known field hfield := by
    rcases List.mem_append.mp hfield with h | h
    · exact List.mem_append_left _ (hf.known field h)
    · exact List.mem_append_right _ (hg.known field h)
  gives d hfits hn := by
    have hfirst := hf.gives d (fun field h => hfits field (List.mem_append_left _ h)) hn
    have hsecond := hg.gives d (fun field h => hfits field (List.mem_append_right _ h)) hn
    -- The fields of `f` leave the part of `g` at its start, those of `g` the part of `f` as it is.
    have hleft := fillNamed_both_left (g := g) hf.known f.start g.start
    rw [fillNamed_append]
    show Gives ((f.both g).fillNamed fs (f.start, g.start) >>= _) d _
    rw [hleft, bind_bind]
    refine hfirst.bind (fun b ⟨a, ha, hP⟩ => ?_)
    show Gives ((f.both g).fillNamed gs (b, g.start)) d _
    rw [fillNamed_both_right (fun field h => hnames _ (hg.known field h))]
    refine hsecond.bind (fun e ⟨c, hc, hQ⟩ => Gives.pure ⟨(a, c), ?_, hP, hQ⟩)
    simp [Form.both, ha, hc]

theorem map {h : α → β} (hf : Fills n f fields P) (hP : ∀ a, P a → Q (h a)) :
    Fills n (f.map h) fields Q where
  known := hf.known
  gives d hfits hn := by
    rw [fillNamed_map]
    refine (hf.gives d hfits hn).imp (fun b ⟨a, ha, haP⟩ => ⟨h a, ?_, hP a haP⟩)
    simp [Form.map, ha]

/-- A record is read back if its fields are. -/
theorem read (lenient listed : Bool) (h : ∀ m, n = m + 1 → Fills m f fields P) :
    Reads n (f.read lenient listed) (.ofFields fields) P := by
  intro d hfits hn
  have hpos : 0 < d.levels := Nat.lt_of_lt_of_le (Nat.succ_pos _) hfits
  have hfill := h (n - 1) (by omega)
  have hgives := hfill.gives { d with levels := d.levels - 1 } (fun field hfield => ?_) ?_
  · refine Gives.nested hpos ?_
    rw [fillFields_eq_fillNamed lenient hfill.known]
    exact hgives.bind (fun b ⟨a, ha, hP⟩ => Gives.ofOption ha hP)
  · show field.2.depth ≤ d.levels - 1
    have := Tree.depth_lt_ofFields hfield
    omega
  · show d.levels - 1 ≤ n - 1
    omega

theorem record (lenient : Bool) (h : ∀ m, n = m + 1 → Fills m f fields P) :
    Reads n (f.record lenient) (.ofFields fields) P :=
  fun d hfits hn => Gives.document (read lenient d.layout.listedRecords h d hfits hn)

theorem body (lenient : Bool) (h : ∀ m, n = m + 1 → Fills m f fields P) :
    Reads n (f.body lenient) (.ofFields fields) P :=
  fun d hfits hn => Gives.document (read lenient d.layout.listedVariants h d hfits hn)

end Fills

end Form

end Planner.Data
