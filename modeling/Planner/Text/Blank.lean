/-! # Blank characters and trimming

`isBlank` is the Unicode property `White_Space`; `trim` removes blank characters at both ends of a
text and `trimEnd` at its end.  The work is done on lists of characters. -/

namespace Planner.Text

/-- The characters with the Unicode property `White_Space`. -/
def isBlank (c : Char) : Bool :=
  let n := c.toNat
  (0x09 ≤ n && n ≤ 0x0D) || n == 0x20 || n == 0x85 || n == 0xA0 || n == 0x1680 ||
    (0x2000 ≤ n && n ≤ 0x200A) || n == 0x2028 || n == 0x2029 || n == 0x202F || n == 0x205F ||
    n == 0x3000

/-- The characters of a text without the blank ones at its end. -/
def dropBlankEnd (cs : List Char) : List Char := (cs.reverse.dropWhile isBlank).reverse

/-- The characters of a text without the blank ones at both ends. -/
def trimChars (cs : List Char) : List Char := dropBlankEnd (cs.dropWhile isBlank)

/-- A text without the blank characters at both ends. -/
def trim (s : String) : String := String.ofList (trimChars s.toList)

/-- A text without the blank characters at its end. -/
def trimEnd (s : String) : String := String.ofList (dropBlankEnd s.toList)

/-- The pieces of a text between occurrences of `sep`: one more than there are occurrences. -/
def splitAt (sep : Char) : List Char → List (List Char)
  | [] => [[]]
  | c :: rest =>
    if c = sep then [] :: splitAt sep rest
    else match splitAt sep rest with
      | [] => [[c]]
      | piece :: pieces => (c :: piece) :: pieces

end Planner.Text
