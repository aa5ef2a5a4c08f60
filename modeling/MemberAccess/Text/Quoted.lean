import MemberAccess.Text.Printable

/-!
# Quoted texts

Texts and characters between quotes, with escapes for what does not show: the usual letters for tab,
line feed, carriage return and the zero character, and the code point in hexadecimal for the rest.
-/

namespace MemberAccess.Text

/-- The code point of a character as an escape. -/
def escapePoint (c : Char) : List Char :=
  "\\u\x7b".toList ++ Nat.toDigits 16 c.toNat ++ "\x7d".toList

/-- A character inside quotes of the given kind. -/
def escape (quote : Char) (c : Char) : List Char :=
  if c = '\x00' then ['\\', '0']
  else if c = '\t' then ['\\', 't']
  else if c = '\r' then ['\\', 'r']
  else if c = '\n' then ['\\', 'n']
  else if c = '\\' || c = quote then ['\\', c]
  else if isExtender c || !isPrintable c then escapePoint c
  else [c]

/-- A text in double quotes. -/
def quoted (s : String) : String := String.ofList ('"' :: s.toList.flatMap (escape '"') ++ ['"'])

/-- A character in single quotes. -/
def quotedChar (c : Char) : String := String.ofList ('\'' :: escape '\'' c ++ ['\''])

end MemberAccess.Text
