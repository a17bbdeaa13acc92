import Mathlib.Data.List.Basic
import Planner.Resolve

/-! # References and joined schemes

A name is looked up in one walk over the columns that stops at its second occurrence.  What the walk
answers depends on the list of all positions that carry the name only (`scan_eq_verdict`): it is that
position if there is one, the first two if there are more, and otherwise the name is unknown.  The
positions in a joined scheme are those on the left and, moved by the size of the left scheme, those on
the right (`positions_append`), so a name is found in it if one side finds it and the other does not
know it.

Main statement: `resolve_concat`. -/

namespace Planner.Scheme

variable {s t : Scheme} {name : String} {i j : ℕ}

/-! ### Positions of a name -/

/-- The column at a position has a name. -/
def Carries (s : Scheme) (name : String) (i : ℕ) : Prop :=
  ∃ c, s.get? i = some c ∧ c.name = some name

/-- The two smallest positions that carry a name. -/
structure FirstTwo (s : Scheme) (name : String) (first second : ℕ) : Prop where
  lt : first < second
  carries_first : s.Carries name first
  carries_second : s.Carries name second
  least : ∀ j, s.Carries name j → j = first ∨ second ≤ j

/-- The positions that carry a name, in order. -/
def positions (name : String) (s : Scheme) : List ℕ :=
  s.columns.findIdxs (fun c => decide (c.name = some name))

theorem mem_positions : i ∈ positions name s ↔ s.Carries name i := by
  rw [positions, List.mem_findIdxs_iff_exists_getElem_pos]
  constructor
  · rintro ⟨hi, hname⟩
    exact ⟨_, List.getElem?_eq_getElem hi, of_decide_eq_true hname⟩
  · rintro ⟨c, hc, hname⟩
    obtain ⟨hi, rfl⟩ := List.getElem?_eq_some_iff.mp hc
    exact ⟨hi, decide_eq_true hname⟩

theorem pairwise_positions (name : String) (s : Scheme) : (positions name s).Pairwise (· < ·) :=
  List.pairwise_findIdxs

/-- In a joined scheme the positions on the right are moved by the size of the left scheme. -/
theorem positions_append (name : String) (s t : Scheme) :
    positions name (s ++ t) = positions name s ++ (positions name t).map (· + s.size) := by
  rw [positions, columns_append, List.findIdxs_append, List.findIdxs_start (s := 0 + _), Nat.zero_add]
  rfl

theorem positions_eq_nil_iff : positions name s = [] ↔ ∀ j, ¬ s.Carries name j := by
  simp only [List.eq_nil_iff_forall_not_mem, mem_positions]

theorem positions_eq_singleton_iff :
    positions name s = [i] ↔ ∀ j, s.Carries name j ↔ j = i := by
  simp only [← mem_positions]
  constructor
  · intro h j
    rw [h, List.mem_singleton]
  · intro h
    have hsorted := pairwise_positions name s
    cases hl : positions name s with
    | nil =>
        rw [hl] at h
        simpa using (h i).mpr rfl
    | cons a rest =>
        rw [hl] at h hsorted
        obtain rfl : a = i := (h a).mp List.mem_cons_self
        cases rest with
        | nil => rfl
        | cons b rest =>
            -- The second position would be the first one again.
            have hb : b = a := (h b).mp (by simp)
            have hlt : a < b := List.rel_of_pairwise_cons hsorted List.mem_cons_self
            omega

theorem exists_positions_iff_firstTwo :
    (∃ rest, positions name s = i :: j :: rest) ↔ s.FirstTwo name i j := by
  have hsorted := pairwise_positions name s
  constructor
  · rintro ⟨rest, h⟩
    rw [h] at hsorted
    have hlt : i < j := List.rel_of_pairwise_cons hsorted List.mem_cons_self
    refine ⟨hlt, mem_positions.mp (by simp [h]), mem_positions.mp (by simp [h]), fun k hk => ?_⟩
    rw [← mem_positions, h, List.mem_cons, List.mem_cons] at hk
    rcases hk with rfl | rfl | hk
    · exact Or.inl rfl
    · exact Or.inr (Nat.le_refl k)
    · exact Or.inr (Nat.le_of_lt (List.rel_of_pairwise_cons hsorted.of_cons hk))
  · rintro ⟨hlt, hi, hj, hleast⟩
    simp only [← mem_positions] at hi hj hleast
    cases hl : positions name s with
    | nil => simp [hl] at hi
    | cons a rest =>
        rw [hl] at hi hj hleast hsorted
        have hge : ∀ k ∈ a :: rest, a ≤ k := by
          intro k hk
          rcases List.mem_cons.mp hk with rfl | hk
          · exact Nat.le_refl k
          · exact Nat.le_of_lt (List.rel_of_pairwise_cons hsorted hk)
        have hai : a = i := by
          have h := hge i hi
          rcases hleast a List.mem_cons_self with h' | h'
          · exact h'
          · omega
        subst hai
        have hmem : j ∈ rest := by
          rcases List.mem_cons.mp hj with h | h
          · omega
          · exact h
        cases rest with
        | nil => cases hmem
        | cons b rest =>
            have hab : a < b := List.rel_of_pairwise_cons hsorted List.mem_cons_self
            have hbj : b ≤ j := by
              rcases List.mem_cons.mp hmem with h | h
              · omega
              · exact Nat.le_of_lt (List.rel_of_pairwise_cons hsorted.of_cons h)
            have hjb : b = a ∨ j ≤ b := hleast b (by simp)
            obtain rfl : b = j := by omega
            exact ⟨rest, rfl⟩

/-! ### The walk over the columns -/

/-- What the positions of a name say about it. -/
def verdict : List ℕ → Except (Option (ℕ × ℕ)) ℕ
  | [] => .error none
  | [i] => .ok i
  | i :: j :: _ => .error (some (i, j))

/-- The walk answers by the positions of the name, one of which may lie behind it. -/
theorem scan_eq_verdict (name : String) (columns : List Column) (start : ℕ) (found : Option ℕ) :
    scan name columns start found =
      verdict (found.toList ++ columns.findIdxs (fun c => decide (c.name = some name)) start) := by
  induction columns generalizing start found with
  | nil => cases found <;> rfl
  | cons c rest ih =>
      rw [List.findIdxs_cons]
      by_cases h : c.name = some name
      · cases found with
        | none => simp [scan, h, ih]
        | some first => simp [scan, h, verdict]
      · simp [scan, h, ih]

theorem positionOf_eq (s : Scheme) (name : String) : s.positionOf name =
    match positions name s with
    | [] => .error (.unknownColumn name s)
    | [i] => .ok i
    | i :: j :: _ => .error (.ambiguousColumn name i j) := by
  have hscan : scan name s.columns 0 none = verdict (positions name s) := scan_eq_verdict name _ 0 none
  rw [positionOf, hscan]
  match positions name s with
  | [] => rfl
  | [i] => rfl
  | i :: j :: _ => rfl

theorem positionOf_eq_ok_iff : s.positionOf name = .ok i ↔ positions name s = [i] := by
  rw [positionOf_eq]
  match positions name s with
  | [] => simp
  | [k] => simp
  | k :: l :: rest => simp

theorem positionOf_eq_ambiguous_iff :
    s.positionOf name = .error (.ambiguousColumn name i j) ↔
      ∃ rest, positions name s = i :: j :: rest := by
  rw [positionOf_eq]
  match positions name s with
  | [] => simp
  | [k] => simp
  | k :: l :: rest => simp

theorem positionOf_eq_unknown_iff :
    s.positionOf name = .error (.unknownColumn name s) ↔ positions name s = [] := by
  rw [positionOf_eq]
  match positions name s with
  | [] => simp
  | [k] => simp
  | k :: l :: rest => simp

/-- A name is ambiguous as soon as two positions carry it. -/
theorem exists_ambiguous_iff :
    (∃ first second, s.positionOf name = .error (.ambiguousColumn name first second)) ↔
      ∃ i j, i ≠ j ∧ s.Carries name i ∧ s.Carries name j := by
  simp only [positionOf_eq_ambiguous_iff]
  constructor
  · rintro ⟨i, j, h⟩
    have htwo := exists_positions_iff_firstTwo.mp h
    exact ⟨i, j, Nat.ne_of_lt htwo.lt, htwo.carries_first, htwo.carries_second⟩
  · rintro ⟨i, j, hne, hi, hj⟩
    rw [← mem_positions] at hi hj
    match hl : positions name s with
    | [] => simp [hl] at hi
    | [k] =>
        rw [hl, List.mem_singleton] at hi hj
        exact absurd (hi.trans hj.symm) hne
    | k :: l :: rest => exact ⟨k, l, rest, rfl⟩

/-! ### Joined schemes -/

theorem concat_eq (s t : Scheme) : s.concat t = s ++ t := by
  cases s
  cases t
  rfl

theorem positionOf_append_eq_ok_iff : (s ++ t).positionOf name = .ok i ↔
    (s.positionOf name = .ok i ∧ t.positionOf name = .error (.unknownColumn name t)) ∨
      (s.positionOf name = .error (.unknownColumn name s) ∧
        ∃ j, t.positionOf name = .ok j ∧ i = j + s.size) := by
  simp only [positionOf_eq_ok_iff, positionOf_eq_unknown_iff, positions_append,
    List.append_eq_singleton_iff, List.map_eq_nil_iff, List.map_eq_singleton_iff]
  constructor
  · rintro (⟨hs, j, hj, rfl⟩ | ⟨hs, ht⟩)
    · exact Or.inr ⟨hs, j, hj, rfl⟩
    · exact Or.inl ⟨hs, ht⟩
  · rintro (⟨hs, ht⟩ | ⟨hs, j, hj, rfl⟩)
    · exact Or.inr ⟨hs, ht⟩
    · exact Or.inl ⟨hs, j, hj, rfl⟩

theorem resolve_position (s : Scheme) (i : UInt64) : s.resolve (.position i) = s.columnAt i := by
  unfold resolve resolvePosition columnAt
  cases h : s.get? i.toNat with
  | none => simp [Except.map, bind, Except.bind, h]
  | some c => simp [Except.map, bind, Except.bind, h]

theorem columnAt_append (s t : Scheme) (i : UInt64) : (s ++ t).columnAt i =
    if h : i.toNat < s.size then .ok (s.columns.get ⟨i.toNat, h⟩)
    else if h : i.toNat - s.size < t.size then .ok (t.columns.get ⟨i.toNat - s.size, h⟩)
    else .error (.columnOutOfRange i (s.size + t.size)) := by
  unfold columnAt get?
  rw [columns_append, size_append]
  split_ifs with hs ht
  · rw [List.getElem?_append_left hs, List.getElem?_eq_getElem hs]
    rfl
  · rw [List.getElem?_append_right (Nat.le_of_not_lt hs), ← size, List.getElem?_eq_getElem ht]
    rfl
  · rw [List.getElem?_eq_none]
    rw [List.length_append]
    change s.size + t.size ≤ _
    omega

/-- **References in a scheme and in a joined one.**  A name stands for the one position that carries it;
it is ambiguous if several do, of which the two smallest are reported, and unknown if none does.  A
joined scheme has the columns of the left scheme and then those of the right one: a number below both
sizes together stands for a column of the left scheme or, less the left size, of the right one, and a
name is found if just one side finds it and the other side does not know it. -/
theorem resolve_concat (s t : Scheme) (name : String) :
    ((∀ i, s.positionOf name = .ok i ↔ ∀ j, s.Carries name j ↔ j = i) ∧
      (∀ first second, s.positionOf name = .error (.ambiguousColumn name first second) ↔
        s.FirstTwo name first second) ∧
      ((∃ first second, s.positionOf name = .error (.ambiguousColumn name first second)) ↔
        ∃ i j, i ≠ j ∧ s.Carries name i ∧ s.Carries name j) ∧
      (s.positionOf name = .error (.unknownColumn name s) ↔ ∀ j, ¬ s.Carries name j)) ∧
    s.concat t = s ++ t ∧
    (∀ i : UInt64, (s.concat t).resolve (.position i) =
      if h : i.toNat < s.size then .ok (s.columns.get ⟨i.toNat, h⟩)
      else if h : i.toNat - s.size < t.size then .ok (t.columns.get ⟨i.toNat - s.size, h⟩)
      else .error (.columnOutOfRange i (s.size + t.size))) ∧
    ∀ i, (s.concat t).positionOf name = .ok i ↔
      (s.positionOf name = .ok i ∧ t.positionOf name = .error (.unknownColumn name t)) ∨
        (s.positionOf name = .error (.unknownColumn name s) ∧
          ∃ j, t.positionOf name = .ok j ∧ i = j + s.size) := by
  refine ⟨⟨fun i => ?_, fun i j => ?_, exists_ambiguous_iff, ?_⟩, concat_eq s t, fun i => ?_,
    fun i => ?_⟩
  · rw [positionOf_eq_ok_iff, positions_eq_singleton_iff]
  · rw [positionOf_eq_ambiguous_iff, exists_positions_iff_firstTwo]
  · rw [positionOf_eq_unknown_iff, positions_eq_nil_iff]
  · rw [concat_eq, resolve_position, columnAt_append]
  · rw [concat_eq, positionOf_append_eq_ok_iff]

end Planner.Scheme
