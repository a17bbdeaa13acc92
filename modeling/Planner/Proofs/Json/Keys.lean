import Planner.Json.Printer
import Planner.Json.Reader
import Planner.Proofs.Expr.Coding

/-! # Keys that are written and read back

A text spells a key if, without the blanks at its ends, it is a name, or three parts between two colons
(`RelationKey.Spells`).  `parse` reads just these texts.  A key that was read is written with its three
parts, of which blanks may still begin or end the inner ones; only the ends of the whole text have
none, so nothing is trimmed when it is read again.

JSON puts a text in quotes and escapes some of its characters.  Each of them is read back in one step
(`readString_quoteChar`), and so is the text (`read_write_string`).  Main statement:
`RelationKey.parse_spelled`. -/

namespace Planner

open Planner.Data

/-! ### Texts in JSON -/

namespace Json

theorem hex4?_control {n : ℕ} (h : n < 0x20) (rest : List Char) :
    hex4? ('0' :: '0' :: hexDigit (n / 16) :: hexDigit (n % 16) :: rest) = some (n, rest) := by
  have hdigits : ∀ m < 0x20, digits? 16 ['0', '0', hexDigit (m / 16), hexDigit (m % 16)] = some m := by
    decide
  rw [hex4?, hdigits n h]
  rfl

/-- A character is read back from its form in quotes, in one step. -/
theorem readString_quoteChar (c : Char) (fuel : ℕ) (acc rest : List Char) :
    readString (fuel + 1) acc true (quoteChar c ++ rest) = readString fuel (c :: acc) true rest := by
  unfold quoteChar
  split_ifs with hquote hslash h8 hc hn hr ht hcontrol
  · subst hquote; rfl
  · subst hslash; rfl
  · subst h8; rfl
  · subst hc; rfl
  · subst hn; rfl
  · subst hr; rfl
  · subst ht; rfl
  · have hhigh : ¬ (0xD800 ≤ c.toNat ∧ c.toNat ≤ 0xDBFF) := by omega
    have hlow : ¬ (0xDC00 ≤ c.toNat ∧ c.toNat ≤ 0xDFFF) := by omega
    simp [readString, hex4?_control hcontrol, hhigh, hlow]
  · simp [readString, hslash, hcontrol]

theorem quoteChar_ne_nil (c : Char) : quoteChar c ≠ [] := by
  unfold quoteChar
  split_ifs <;> simp

theorem readString_flatMap (cs : List Char) (acc rest : List Char) {fuel : ℕ}
    (h : (cs.flatMap quoteChar).length < fuel) :
    readString fuel acc true (cs.flatMap quoteChar ++ '"' :: rest) =
      some (some (String.ofList (acc.reverse ++ cs)), rest) := by
  induction cs generalizing acc fuel with
  | nil =>
      obtain ⟨k, rfl⟩ := Nat.exists_eq_add_of_lt h
      simp [readString]
  | cons c cs ih =>
      rw [List.flatMap_cons, List.length_append] at h
      have hpos := List.length_pos_iff.mpr (quoteChar_ne_nil c)
      obtain ⟨k, rfl⟩ : ∃ k, fuel = k + 1 := ⟨fuel - 1, by omega⟩
      rw [List.flatMap_cons, List.append_assoc, readString_quoteChar, ih _ (by omega)]
      simp

theorem read_write_string (s : String) :
    read (write (.string s)) =
      { root := .string s, layout := .jsonText, levels := maxLevels, sound := true } := by
  have hread : readString ((s.toList.flatMap quoteChar ++ ['"']).length + 1) [] true
      (s.toList.flatMap quoteChar ++ ['"']) = some (some s, []) := by
    rw [readString_flatMap s.toList [] []]
    · simp
    · rw [List.length_append]
      omega
  have hskip (cs : List Char) : skip ('"' :: cs) = '"' :: cs := rfl
  simp only [read, write, Tree.string, writeAtom, quote, String.toList_ofList, List.cons_append,
    readValue, hskip, hread, stringTree]
  rfl

end Json

/-! ### Trimming -/

namespace Text

theorem exists_dropWhile_isBlank (cs : List Char) :
    ∃ front, cs = front ++ cs.dropWhile isBlank ∧ ∀ c ∈ front, isBlank c = true :=
  ⟨cs.takeWhile isBlank, (List.takeWhile_append_dropWhile).symm, fun _ => List.mem_takeWhile_imp⟩

/-- Only blanks are taken away, and only at the ends. -/
theorem exists_trimChars (cs : List Char) : ∃ front back, cs = front ++ trimChars cs ++ back ∧
    ∀ c ∈ front ++ back, isBlank c = true := by
  obtain ⟨front, hfront, hblank⟩ := exists_dropWhile_isBlank cs
  obtain ⟨back, hback, hblank'⟩ := exists_dropWhile_isBlank (cs.dropWhile isBlank).reverse
  refine ⟨front, back.reverse, ?_, fun c hc => ?_⟩
  · have hsplit : cs.dropWhile isBlank = trimChars cs ++ back.reverse := by
      have hreverse := congrArg List.reverse hback
      rwa [List.reverse_reverse, List.reverse_append] at hreverse
    rw [List.append_assoc, ← hsplit]
    exact hfront
  · rcases List.mem_append.mp hc with hc | hc
    · exact hblank c hc
    · exact hblank' c (List.mem_reverse.mp hc)

@[simp] theorem toList_trim (s : String) : (trim s).toList = trimChars s.toList := by simp [trim]

end Text

/-! ### Keys -/

namespace RelationKey

open Text

variable {s : String} {k : RelationKey}

/-- How a text that is trimmed spells a key. -/
inductive Spells : String → RelationKey → Prop
  | name {relation : String} (hne : relation ≠ "") (hcolons : relation.toList.count ':' = 0) :
      Spells relation ⟨defaultUser, defaultProgram, relation⟩
  | parts {user program relation : String} (huser : user ≠ "") (hprogram : program ≠ "")
      (hrelation : relation ≠ "")
      (hcolons : (user ++ ":" ++ program ++ ":" ++ relation).toList.count ':' = 2) :
      Spells (user ++ ":" ++ program ++ ":" ++ relation) ⟨user, program, relation⟩

/-- A key in full has the two colons between its parts and those inside them. -/
theorem count_text (k : RelationKey) : k.text.toList.count ':' =
    k.user.toList.count ':' + k.program.toList.count ':' + k.relation.toList.count ':' + 2 := by
  rw [toList_text]
  simp only [List.count_append, List.count_cons_self]
  omega

theorem count_text_eq_two_iff : k.text.toList.count ':' = 2 ↔
    ':' ∉ k.user.toList ∧ ':' ∉ k.program.toList ∧ ':' ∉ k.relation.toList := by
  rw [count_text]
  simp only [← List.count_eq_zero]
  omega

theorem parse?_eq_some_iff_spells : parse? s = some k ↔ Spells (trim s) k := by
  rw [parse?_eq_some_iff]
  simp only [← toList_trim, String.toList_inj]
  constructor
  · obtain ⟨user, program, relation⟩ := k
    rintro (⟨rfl, rfl, htext, hne, hcolon⟩ | ⟨htext, ⟨huser, hprogram, hrelation⟩, hcolons⟩)
    · rw [htext]
      exact .name (by simpa using hne) (List.count_eq_zero.mpr hcolon)
    · rw [htext]
      exact .parts (by simpa using huser) (by simpa using hprogram) (by simpa using hrelation)
        (count_text_eq_two_iff.mpr hcolons)
  · intro h
    generalize trim s = t at h
    cases h with
    | name hne hcolons =>
        exact Or.inl ⟨rfl, rfl, rfl, by simpa using hne, List.count_eq_zero.mp hcolons⟩
    | parts huser hprogram hrelation hcolons =>
        refine Or.inr ⟨rfl, ⟨?_, ?_, ?_⟩, count_text_eq_two_iff.mp hcolons⟩
        · simpa using huser
        · simpa using hprogram
        · simpa using hrelation

theorem parse_eq_ok_iff : parse s = .ok k ↔ parse? s = some k := by
  unfold parse
  cases parse? s <;> simp

theorem parse_eq_error_iff {e : SchemeError} :
    parse s = .error e ↔ e = .invalidRelationKey s ∧ ∀ k, parse? s ≠ some k := by
  unfold parse
  cases parse? s <;> simp [eq_comm]

theorem count_text_of_parse? (h : parse? s = some k) : k.text.toList.count ':' = 2 := by
  rw [count_text_eq_two_iff]
  rcases parse?_eq_some_iff.mp (parse?_text h) with ⟨huser, hprogram, _, _, hcolon⟩ | ⟨_, _, hcolons⟩
  · rw [huser, hprogram]
    exact ⟨by decide, by decide, hcolon⟩
  · exact hcolons

theorem read_toTree {σ : Type} (state : σ) {d : Document} (h : parse? s = some k)
    (hroot : d.root = k.toTree) (hsound : d.sound = true) :
    ∃ after, d.read ofTree state = (some k, after) := by
  have hfits : k.toTree.depth ≤ d.levels := Nat.zero_le _
  obtain ⟨_, p, hread, rfl⟩ := reads_toTree ⟨s, h⟩ d hfits (Nat.le_refl _) { state := state }
  refine ⟨p.state, ?_⟩
  simp [Document.read, hroot, hread, hsound]

/-- **Which texts are keys, and that keys are read back.**  A text is a key if what is left of it
without the blanks at its ends is a name without colons, or has just two colons, between three parts
that are not empty; then these are the parts of the key, and otherwise the text is refused.  A key that
was read has two colons in full and is read back, from its text, from any document that holds it, and
from JSON. -/
theorem parse_spelled (s : String) :
    (∃ front back, s.toList = front ++ (trim s).toList ++ back ∧
        (∀ c ∈ front ++ back, isBlank c = true) ∧ Trimmed (trim s).toList) ∧
      (∀ k, parse s = .ok k ↔ Spells (trim s) k) ∧
      (∀ e, parse s = .error e ↔ e = .invalidRelationKey s ∧ ∀ k, ¬ Spells (trim s) k) ∧
      ∀ k, parse s = .ok k →
        parse k.text = .ok k ∧ k.text.toList.count ':' = 2 ∧
        (∀ (σ : Type) (state : σ) (d : Document), d.root = k.toTree → d.sound = true →
          ∃ after, d.read ofTree state = (some k, after)) ∧
        ∃ after, (Json.read (Json.write k.toTree)).read ofTree () = (some k, after) := by
  obtain ⟨front, back, hsplit, hblank⟩ := exists_trimChars s.toList
  refine ⟨⟨front, back, ?_, hblank, ?_⟩, fun k => ?_, fun e => ?_, fun k hk => ?_⟩
  · rw [toList_trim]
    exact hsplit
  · rw [toList_trim]
    exact trimmed_trimChars s.toList
  · rw [parse_eq_ok_iff, parse?_eq_some_iff_spells]
  · simp only [parse_eq_error_iff, ne_eq, parse?_eq_some_iff_spells]
  · rw [parse_eq_ok_iff] at hk
    refine ⟨parse_eq_ok_iff.mpr (parse?_text hk), count_text_of_parse? hk,
      fun σ state d hroot hsound => read_toTree state hk hroot hsound, ?_⟩
    rw [toTree, Json.read_write_string]
    exact read_toTree () hk rfl rfl

/-- Blanks beside the colons belong to the parts, those at the ends to none. -/
theorem parse_spelled_padded :
    let k : RelationKey := ⟨"ann ", "\tjob", " r s"⟩
    parse "\u2003ann :\tjob: r s\n" = .ok k ∧ parse k.text = .ok k ∧ k.text.toList.count ':' = 2 ∧
      ∃ after, (Json.read (Json.write k.toTree)).read ofTree () = (some k, after) := by
  intro k
  have hk : parse "\u2003ann :\tjob: r s\n" = .ok k := by decide
  obtain ⟨_, _, _, hback⟩ := parse_spelled "\u2003ann :\tjob: r s\n"
  obtain ⟨htext, hcount, _, hjson⟩ := hback k hk
  exact ⟨hk, htext, hcount, hjson⟩

end RelationKey

end Planner
