import Mathlib.Data.List.DropRight
import Planner.RelationKey

/-! # Relation keys as texts

`parse?_eq_some_iff` says which texts are keys: without the blanks at both ends, one part without
colons, or three such parts with colons between them.  So a key in full is read back as the key
(`parse?_text`), blanks beside its colons included. -/

namespace Planner

namespace Text

variable {sep c : Char} {cs piece rest : List Char}

/-! ### Pieces -/

theorem splitAt_of_not_mem (h : sep ∉ cs) : splitAt sep cs = [cs] := by
  induction cs with
  | nil => rfl
  | cons c cs ih =>
      rw [List.mem_cons, not_or] at h
      rw [splitAt, if_neg (Ne.symm h.1), ih h.2]

theorem splitAt_append (h : sep ∉ piece) (rest : List Char) :
    splitAt sep (piece ++ sep :: rest) = piece :: splitAt sep rest := by
  induction piece with
  | nil => rw [List.nil_append, splitAt, if_pos rfl]
  | cons c piece ih =>
      rw [List.mem_cons, not_or] at h
      rw [List.cons_append, splitAt, if_neg (Ne.symm h.1), ih h.2]

/-- A text is its only piece, or its first piece stands before the first separator. -/
theorem splitAt_cases (sep : Char) (cs : List Char) :
    (sep ∉ cs ∧ splitAt sep cs = [cs]) ∨
      ∃ piece rest, sep ∉ piece ∧ cs = piece ++ sep :: rest ∧
        splitAt sep cs = piece :: splitAt sep rest := by
  by_cases h : sep ∈ cs
  · obtain ⟨piece, rest, rfl, hpiece⟩ := List.eq_append_cons_of_mem h
    exact Or.inr ⟨piece, rest, hpiece, rfl, splitAt_append hpiece rest⟩
  · exact Or.inl ⟨h, splitAt_of_not_mem h⟩

theorem splitAt_eq_singleton_iff : splitAt sep cs = [piece] ↔ cs = piece ∧ sep ∉ piece := by
  constructor
  · intro h
    rcases splitAt_cases sep cs with ⟨hmem, hcs⟩ | ⟨first, rest, _, _, hcs⟩
    · obtain rfl : cs = piece := by simpa [hcs] using h
      exact ⟨rfl, hmem⟩
    · rw [hcs] at h
      have hnil : splitAt sep rest = [] := (List.cons.inj h).2
      rcases splitAt_cases sep rest with ⟨_, hrest⟩ | ⟨_, _, _, _, hrest⟩ <;>
        rw [hrest] at hnil <;> cases hnil
  · rintro ⟨rfl, hmem⟩
    exact splitAt_of_not_mem hmem

theorem splitAt_eq_cons_cons_iff {next : List Char} {pieces : List (List Char)} :
    splitAt sep cs = piece :: next :: pieces ↔
      ∃ rest, cs = piece ++ sep :: rest ∧ sep ∉ piece ∧ splitAt sep rest = next :: pieces := by
  constructor
  · intro h
    rcases splitAt_cases sep cs with ⟨_, hcs⟩ | ⟨first, rest, hfirst, rfl, hcs⟩
    · rw [hcs] at h
      cases (List.cons.inj h).2
    · rw [hcs] at h
      obtain ⟨rfl, hrest⟩ := List.cons.inj h
      exact ⟨rest, rfl, hfirst, hrest⟩
  · rintro ⟨rest, rfl, hpiece, hrest⟩
    rw [splitAt_append hpiece, hrest]

/-! ### Texts without blanks at their ends -/

/-- No blank stands at either end. -/
structure Trimmed (cs : List Char) : Prop where
  head : ∀ c ∈ cs.head?, isBlank c = false
  last : ∀ c ∈ cs.getLast?, isBlank c = false

theorem isBlank_head?_dropWhile (cs : List Char) :
    ∀ c ∈ (cs.dropWhile isBlank).head?, isBlank c = false := by
  intro c hc
  have h := List.head?_dropWhile_not isBlank cs
  rw [Option.mem_def.mp hc] at h
  exact h

theorem dropWhile_isBlank_eq_self (h : ∀ c ∈ cs.head?, isBlank c = false) :
    cs.dropWhile isBlank = cs := by
  cases cs with
  | nil => rfl
  | cons c cs => rw [List.dropWhile_cons_of_neg (by simp [h c rfl])]

theorem trimmed_trimChars (cs : List Char) : Trimmed (trimChars cs) where
  head c hc := by
    obtain ⟨blanks, hblanks⟩ := List.rdropWhile_prefix isBlank (l := cs.dropWhile isBlank)
    have hhead : ((cs.dropWhile isBlank).rdropWhile isBlank).head? = some c := hc
    apply isBlank_head?_dropWhile cs
    rw [← hblanks, List.head?_append, hhead]
    rfl
  last c hc := by
    rw [trimChars, dropBlankEnd, List.getLast?_reverse] at hc
    exact isBlank_head?_dropWhile _ c hc

theorem Trimmed.trimChars_eq (h : Trimmed cs) : trimChars cs = cs := by
  have hlast : ∀ c ∈ cs.reverse.head?, isBlank c = false := by
    rw [List.head?_reverse]
    exact h.last
  rw [trimChars, dropWhile_isBlank_eq_self h.head, dropBlankEnd, dropWhile_isBlank_eq_self hlast,
    List.reverse_reverse]

end Text

namespace RelationKey

open Text

variable {s : String} {k : RelationKey}

/-- The characters of a key in full. -/
theorem toList_text (k : RelationKey) :
    k.text.toList = k.user.toList ++ ':' :: (k.program.toList ++ ':' :: k.relation.toList) := by
  simp [text]

/-- A text is a key if, without the blanks at both ends, it is a part that is not empty and has no
colon, or three such parts with colons between them. -/
theorem parse?_eq_some_iff : parse? s = some k ↔
    (k.user = defaultUser ∧ k.program = defaultProgram ∧ trimChars s.toList = k.relation.toList ∧
        k.relation.toList ≠ [] ∧ ':' ∉ k.relation.toList) ∨
      (trimChars s.toList = k.text.toList ∧
        (k.user.toList ≠ [] ∧ k.program.toList ≠ [] ∧ k.relation.toList ≠ []) ∧
        ':' ∉ k.user.toList ∧ ':' ∉ k.program.toList ∧ ':' ∉ k.relation.toList) := by
  rw [toList_text]
  constructor
  · intro h
    unfold parse? at h
    split at h
    · rename_i relation hsplit
      obtain ⟨hcs, hcolon⟩ := splitAt_eq_singleton_iff.mp hsplit
      split_ifs at h with hempty
      obtain rfl := Option.some.inj h
      rw [List.isEmpty_iff] at hempty
      simp only [String.toList_ofList]
      exact Or.inl ⟨trivial, trivial, hcs, hempty, hcolon⟩
    · rename_i user program relation hsplit
      obtain ⟨rest, hcs, huser, hsplit⟩ := splitAt_eq_cons_cons_iff.mp hsplit
      obtain ⟨rest', rfl, hprogram, hsplit⟩ := splitAt_eq_cons_cons_iff.mp hsplit
      obtain ⟨rfl, hrelation⟩ := splitAt_eq_singleton_iff.mp hsplit
      split_ifs at h with hempty
      obtain rfl := Option.some.inj h
      simp only [Bool.or_eq_true, List.isEmpty_iff, not_or] at hempty
      simp only [String.toList_ofList]
      exact Or.inr ⟨hcs, ⟨hempty.1.1, hempty.1.2, hempty.2⟩, huser, hprogram, hrelation⟩
    · cases h
  · obtain ⟨user, program, relation⟩ := k
    rintro (⟨rfl, rfl, hcs, hne, hcolon⟩ | ⟨hcs, ⟨huser, hprogram, hrelation⟩, hu, hp, hr⟩)
    · rw [parse?, hcs, splitAt_of_not_mem hcolon]
      simp [hne]
    · rw [parse?, hcs, splitAt_append hu, splitAt_append hp, splitAt_of_not_mem hr]
      simp [huser, hprogram, hrelation]

theorem trimmed_text_of_parse? (h : parse? s = some k) : Trimmed k.text.toList := by
  have htrimmed := trimmed_trimChars s.toList
  rcases parse?_eq_some_iff.mp h with ⟨huser, hprogram, hcs, hne, _⟩ | ⟨hcs, _⟩
  · rw [hcs] at htrimmed
    have htext : k.text.toList =
        (k.user.toList ++ ':' :: (k.program.toList ++ [':'])) ++ k.relation.toList := by
      rw [toList_text]
      simp
    refine ⟨fun c hc => ?_, ?_⟩
    · have hhead : k.text.toList.head? = some 'p' := by
        rw [toList_text, huser]
        rfl
      rw [hhead] at hc
      obtain rfl := Option.some.inj hc
      decide
    · rw [htext, List.getLast?_append_of_ne_nil _ hne]
      exact htrimmed.last
  · rwa [hcs] at htrimmed

/-- A key in full is read back as the key. -/
theorem parse?_text (h : parse? s = some k) : parse? k.text = some k := by
  have htrimmed := (trimmed_text_of_parse? h).trimChars_eq
  rw [parse?_eq_some_iff] at h ⊢
  refine Or.inr ⟨htrimmed, ?_⟩
  rcases h with ⟨huser, hprogram, _, hne, hcolon⟩ | ⟨_, hne, hcolon⟩
  · rw [huser, hprogram]
    exact ⟨⟨by decide, by decide, hne⟩, by decide, by decide, hcolon⟩
  · exact ⟨hne, hcolon⟩

end RelationKey

end Planner
