/-! # Capital letters of ASCII words

`capital c` is the Unicode upper-case form of a character, as far as that form is made of ASCII
letters.  Besides the ASCII letters these are the sharp s, the dotless i, the long s and the Latin
ligatures.  Every other character keeps its place: it is not ASCII and neither is its upper-case
form, so a word that holds it is never an ASCII word. -/

namespace Planner.Text

/-- The upper-case form of a character whose upper-case form is ASCII; any other character alone. -/
def capital (c : Char) : List Char :=
  match c.toNat with
  | 0xDF => ['S', 'S']
  | 0x131 => ['I']
  | 0x17F => ['S']
  | 0xFB00 => ['F', 'F']
  | 0xFB01 => ['F', 'I']
  | 0xFB02 => ['F', 'L']
  | 0xFB03 => ['F', 'F', 'I']
  | 0xFB04 => ['F', 'F', 'L']
  | 0xFB05 => ['S', 'T']
  | 0xFB06 => ['S', 'T']
  | _ => [c.toUpper]

/-- A word in capital letters, exact for words whose upper-case form is ASCII. -/
def capitals (s : String) : String := String.ofList (s.toList.flatMap capital)

end Planner.Text
