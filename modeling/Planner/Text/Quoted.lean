import Planner.Text.Printable

/-! # Texts in quotes

`quote` writes a text in double quotes on one line: quotes, backslashes, line breaks and tabs have
escapes of one letter, other characters that cannot be printed stand in braces by their number. -/

namespace Planner.Text

/-- A character inside quotes. -/
def quoteChar (c : Char) : List Char :=
  if c = '\x00' then ['\\', '0']
  else if c = '\t' then ['\\', 't']
  else if c = '\r' then ['\\', 'r']
  else if c = '\n' then ['\\', 'n']
  else if c = '\\' then ['\\', '\\']
  else if c = '"' then ['\\', '"']
  else if isPrintable c then [c]
  else '\\' :: 'u' :: '\x7b' :: Nat.toDigits 16 c.toNat ++ ['\x7d']

/-- A text in quotes. -/
def quote (s : String) : String := String.ofList ('"' :: s.toList.flatMap quoteChar ++ ['"'])

/-- A list of texts in quotes between braces. -/
def quoteSet (texts : List String) : String :=
  "\x7b" ++ ", ".intercalate (texts.map quote) ++ "\x7d"

end Planner.Text
