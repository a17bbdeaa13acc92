/-! # Sorted sets

`Ranked α` places the elements of `α` in one line.  Texts are ranked by their code points.  A
`SortedSet` lists its elements in that order, each once, so two sets with the same members are equal
(`SortedSet.ext_mem`) and a listing of a set needs no further sorting. -/

namespace Planner

/-- A decidable strict linear order. -/
class Ranked (α : Type) where
  before : α → α → Bool
  irrefl : ∀ a, before a a = false
  trans : ∀ a b c, before a b = true → before b c = true → before a c = true
  total : ∀ a b, before a b = false → before b a = false → a = b

namespace Text

/-- Lexicographic order by code point. -/
def charsBefore : List Char → List Char → Bool
  | _, [] => false
  | [], _ :: _ => true
  | a :: as, b :: bs =>
    if a.toNat < b.toNat then true
    else if b.toNat < a.toNat then false
    else charsBefore as bs

theorem charsBefore_irrefl (as : List Char) : charsBefore as as = false := by
  induction as with
  | nil => rfl
  | cons a as ih => simp [charsBefore, ih]

theorem charsBefore_trans (as bs cs : List Char) (h₁ : charsBefore as bs = true)
    (h₂ : charsBefore bs cs = true) : charsBefore as cs = true := by
  induction as generalizing bs cs with
  | nil =>
    cases cs with
    | nil => cases bs <;> simp [charsBefore] at h₂
    | cons c cs => rfl
  | cons a as ih =>
    cases bs with
    | nil => simp [charsBefore] at h₁
    | cons b bs =>
      cases cs with
      | nil => simp [charsBefore] at h₂
      | cons c cs =>
        simp only [charsBefore] at h₁ h₂ ⊢
        split at h₁
        · split at h₂
          · rw [if_pos (by omega)]
          · split at h₂
            · exact absurd h₂ (by simp)
            · rw [if_pos (by omega)]
        · split at h₁
          · exact absurd h₁ (by simp)
          · split at h₂
            · rw [if_pos (by omega)]
            · split at h₂
              · exact absurd h₂ (by simp)
              · rw [if_neg (by omega), if_neg (by omega)]
                exact ih bs cs h₁ h₂

theorem charsBefore_total (as bs : List Char) (h₁ : charsBefore as bs = false)
    (h₂ : charsBefore bs as = false) : as = bs := by
  induction as generalizing bs with
  | nil =>
    cases bs with
    | nil => rfl
    | cons b bs => simp [charsBefore] at h₁
  | cons a as ih =>
    cases bs with
    | nil => simp [charsBefore] at h₂
    | cons b bs =>
      simp only [charsBefore] at h₁ h₂
      split at h₁
      · exact absurd h₁ (by simp)
      · rename_i hab
        split at h₂
        · exact absurd h₂ (by simp)
        · rename_i hba
          rw [if_neg hba] at h₁
          rw [ih bs h₁ h₂, Char.toNat_inj.mp (by omega : a.toNat = b.toNat)]

end Text

instance : Ranked String where
  before a b := Text.charsBefore a.toList b.toList
  irrefl a := Text.charsBefore_irrefl a.toList
  trans a b c := Text.charsBefore_trans a.toList b.toList c.toList
  total a b h₁ h₂ := String.toList_inj.mp (Text.charsBefore_total a.toList b.toList h₁ h₂)

/-- A finite set, listed in order without repetition. -/
structure SortedSet (α : Type) [Ranked α] where
  toList : List α
  sorted : toList.Pairwise (fun a b => Ranked.before a b = true)

namespace SortedSet

variable {α : Type} [Ranked α]

instance [DecidableEq α] : DecidableEq (SortedSet α) := fun s t =>
  if h : s.toList = t.toList then
    isTrue (by cases s; cases t; cases h; rfl)
  else isFalse (fun e => h (e ▸ rfl))

instance : Membership α (SortedSet α) := ⟨fun s a => a ∈ s.toList⟩

theorem mem_toList {a : α} {s : SortedSet α} : a ∈ s.toList ↔ a ∈ s := Iff.rfl

instance [DecidableEq α] (a : α) (s : SortedSet α) : Decidable (a ∈ s) :=
  inferInstanceAs (Decidable (a ∈ s.toList))

/-- The set with no element. -/
def empty : SortedSet α := ⟨[], List.Pairwise.nil⟩

@[simp] theorem not_mem_empty (a : α) : a ∉ (empty : SortedSet α) := by
  simp [← mem_toList, empty]

/-- Puts an element into a sorted list, unless it is there. -/
def place (a : α) : List α → List α
  | [] => [a]
  | b :: rest =>
    if Ranked.before a b then a :: b :: rest
    else if Ranked.before b a then b :: place a rest
    else b :: rest

theorem mem_place {a x : α} {l : List α} : x ∈ place a l ↔ x = a ∨ x ∈ l := by
  induction l with
  | nil => simp [place]
  | cons b rest ih =>
    simp only [place]
    split
    · simp
    · split
      · simp only [List.mem_cons, ih]
        exact or_left_comm
      · rename_i h₁ h₂
        have : a = b := Ranked.total a b (by simpa using h₁) (by simpa using h₂)
        subst this
        simp

theorem pairwise_place (a : α) {l : List α} (h : l.Pairwise (fun a b => Ranked.before a b = true)) :
    (place a l).Pairwise (fun a b => Ranked.before a b = true) := by
  induction l with
  | nil => simp [place]
  | cons b rest ih =>
    obtain ⟨hb, hrest⟩ := List.pairwise_cons.mp h
    simp only [place]
    split
    · rename_i hab
      refine List.pairwise_cons.mpr ⟨fun x hx => ?_, h⟩
      rcases List.mem_cons.mp hx with rfl | hx
      · exact hab
      · exact Ranked.trans _ _ _ hab (hb x hx)
    · split
      · rename_i hba
        refine List.pairwise_cons.mpr ⟨fun x hx => ?_, ih hrest⟩
        rcases mem_place.mp hx with rfl | hx
        · exact hba
        · exact hb x hx
      · exact h

/-- The set with one more element. -/
def insert (a : α) (s : SortedSet α) : SortedSet α := ⟨place a s.toList, pairwise_place a s.sorted⟩

@[simp] theorem mem_insert {a x : α} {s : SortedSet α} : x ∈ insert a s ↔ x = a ∨ x ∈ s := mem_place

/-- The elements that satisfy a test. -/
def filter (p : α → Bool) (s : SortedSet α) : SortedSet α := ⟨s.toList.filter p, s.sorted.filter p⟩

@[simp] theorem mem_filter {p : α → Bool} {x : α} {s : SortedSet α} :
    x ∈ filter p s ↔ x ∈ s ∧ p x = true := List.mem_filter

/-- The set without an element. -/
def erase [DecidableEq α] (a : α) (s : SortedSet α) : SortedSet α := s.filter (fun x => decide (x ≠ a))

@[simp] theorem mem_erase [DecidableEq α] {a x : α} {s : SortedSet α} :
    x ∈ erase a s ↔ x ∈ s ∧ x ≠ a := by simp [erase]

/-- The set with all elements of a list added. -/
def insertAll (l : List α) (s : SortedSet α) : SortedSet α := l.foldl (fun s a => s.insert a) s

@[simp] theorem mem_insertAll {l : List α} {x : α} {s : SortedSet α} :
    x ∈ insertAll l s ↔ x ∈ l ∨ x ∈ s := by
  induction l generalizing s with
  | nil => simp [insertAll]
  | cons a l ih =>
    have : x ∈ insertAll (a :: l) s ↔ x ∈ insertAll l (s.insert a) := Iff.rfl
    rw [this, ih, mem_insert, List.mem_cons]
    constructor
    · rintro (h | h | h) <;> simp [h]
    · rintro ((h | h) | h) <;> simp [h]

/-- The set of a list's elements. -/
def ofList (l : List α) : SortedSet α := empty.insertAll l

@[simp] theorem mem_ofList {l : List α} {x : α} : x ∈ ofList l ↔ x ∈ l := by simp [ofList]

/-- The elements of either set. -/
def union (s t : SortedSet α) : SortedSet α := s.insertAll t.toList

@[simp] theorem mem_union {s t : SortedSet α} {x : α} : x ∈ union s t ↔ x ∈ s ∨ x ∈ t := by
  simp [union, mem_toList, or_comm]

theorem not_before_of_before {a b : α} (h : Ranked.before a b = true) : Ranked.before b a = false := by
  cases hb : Ranked.before b a with
  | false => rfl
  | true => exact absurd (Ranked.trans _ _ _ h hb) (by simp [Ranked.irrefl])

theorem toList_eq_of_mem {l m : List α} (hl : l.Pairwise (fun a b => Ranked.before a b = true))
    (hm : m.Pairwise (fun a b => Ranked.before a b = true)) (h : ∀ x, x ∈ l ↔ x ∈ m) : l = m := by
  induction l generalizing m with
  | nil =>
    cases m with
    | nil => rfl
    | cons b m => exact absurd ((h b).mpr (by simp)) (by simp)
  | cons a l ih =>
    cases m with
    | nil => exact absurd ((h a).mp (by simp)) (by simp)
    | cons b m =>
      obtain ⟨ha, hl'⟩ := List.pairwise_cons.mp hl
      obtain ⟨hb, hm'⟩ := List.pairwise_cons.mp hm
      have hab : a = b := by
        rcases List.mem_cons.mp ((h a).mp (by simp)) with e | hmem
        · exact e
        · rcases List.mem_cons.mp ((h b).mpr (by simp)) with e | hmem'
          · exact e.symm
          · have := not_before_of_before (hb a hmem)
            rw [ha b hmem'] at this
            exact absurd this (by simp)
      subst hab
      congr 1
      refine ih hl' hm' (fun x => ?_)
      have hne : ∀ y ∈ l, y ≠ a := fun y hy e => by
        have := ha y hy
        rw [e, Ranked.irrefl] at this
        exact absurd this (by simp)
      have hne' : ∀ y ∈ m, y ≠ a := fun y hy e => by
        have := hb y hy
        rw [e, Ranked.irrefl] at this
        exact absurd this (by simp)
      constructor
      · intro hx
        rcases List.mem_cons.mp ((h x).mp (List.mem_cons_of_mem _ hx)) with e | hx'
        · exact absurd e (hne x hx)
        · exact hx'
      · intro hx
        rcases List.mem_cons.mp ((h x).mpr (List.mem_cons_of_mem _ hx)) with e | hx'
        · exact absurd e (hne' x hx)
        · exact hx'

/-- A set lists each member once. -/
theorem nodup_toList (s : SortedSet α) : s.toList.Nodup := by
  refine s.sorted.imp (fun {a b} h e => ?_)
  rw [e, Ranked.irrefl] at h
  exact absurd h (by simp)

/-- Sets with the same members are equal. -/
theorem ext_mem {s t : SortedSet α} (h : ∀ x, x ∈ s ↔ x ∈ t) : s = t := by
  have := toList_eq_of_mem s.sorted t.sorted h
  cases s; cases t; cases this; rfl

end SortedSet

/-- A set of variable names. -/
abbrev NameSet := SortedSet String

end Planner
