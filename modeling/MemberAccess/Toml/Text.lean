import MemberAccess.Number.Numeral

/-!
# Quoted texts of settings

Texts stand in double or single quotes, on one line or, in three quotes, on several. Double quotes admit
escapes; a backslash at the end of a line drops the white space up to the next character. Line ends are
single line feeds here: the document has been normalized before.

* `Quotes.read`: a text up to its closing quotes, and what follows them.
-/

namespace MemberAccess.Toml

/-- Whether a character may stand in a text or a comment: tabs and all that is no control character. -/
def isTextChar (c : Char) : Bool := c = '\t' || (0x20 ≤ c.toNat && c.toNat ≠ 0x7f)

/-- A way of quoting. -/
structure Quotes where
  quote : Char
  escapes : Bool
  multiline : Bool

/-- What the reading of a text is in the middle of. -/
inductive TextMode where
  | plain
  /-- so many quotes in a row, in a text of several lines -/
  | quotes (count : Nat)
  | escape
  /-- white space after a backslash, before or after the line end -/
  | folding (broken : Bool)
  /-- a code point of which so many digits are missing -/
  | point (missing value : Nat)

/-- The characters that a letter stands for after a backslash. -/
def escaped? : Char → Option Char
  | 'b' => some '\x08'
  | 't' => some '\t'
  | 'n' => some '\n'
  | 'f' => some '\x0c'
  | 'r' => some '\r'
  | '"' => some '"'
  | '\\' => some '\\'
  | _ => none

/-- The character of a code point. -/
def charOf? (n : Nat) : Option Char := if h : n.isValidChar then some (Char.ofNatAux n h) else none

namespace Quotes

/-- What comes after a character: the text goes on in some mode, with some more of it read, or it ends
before or behind the character. -/
inductive Turn where
  | more (written : List Char) (mode : TextMode)
  | endBehind
  | endBefore (written : List Char)

/-- A character in the midst of a text, after some quotes that belong to it. -/
def plainTurn (q : Quotes) (before : List Char) (c : Char) : Option Turn :=
  if c = q.quote then some (if q.multiline then .more before (.quotes 1) else .endBehind)
  else if c = '\\' && q.escapes then some (.more before .escape)
  else if isTextChar c || (q.multiline && c = '\n') then some (.more (before ++ [c]) .plain)
  else none

/-- A character after a backslash. -/
def escapeTurn (q : Quotes) (c : Char) : Option Turn :=
  match escaped? c with
  | some d => some (.more [d] .plain)
  | none =>
    if c = 'u' then some (.more [] (.point 4 0))
    else if c = 'U' then some (.more [] (.point 8 0))
    else if q.multiline && c = '\n' then some (.more [] (.folding true))
    else if q.multiline && (c = ' ' || c = '\t') then some (.more [] (.folding false))
    else none

/-- Up to two quotes in a row belong to a text of several lines, also just before the closing ones. -/
def turn (q : Quotes) (mode : TextMode) (c : Char) : Option Turn :=
  match mode with
  | .plain => q.plainTurn [] c
  | .quotes n =>
    if c = q.quote then if n < 5 then some (.more [] (.quotes (n + 1))) else none
    else if 3 ≤ n then some (.endBefore (List.replicate (n - 3) q.quote))
    else q.plainTurn (List.replicate n q.quote) c
  | .escape => q.escapeTurn c
  | .folding broken =>
    if c = ' ' || c = '\t' then some (.more [] (.folding broken))
    else if c = '\n' then some (.more [] (.folding true))
    else if broken then q.plainTurn [] c else none
  | .point missing value => do
    let value := 16 * value + (← Number.hexDigit? c)
    if missing ≤ 1 then some (.more [← charOf? value] .plain)
    else some (.more [] (.point (missing - 1) value))

/-- The rest of a text, and what follows it. -/
def readFrom (q : Quotes) : TextMode → List Char → Option (List Char × List Char)
  | .quotes n, [] => if 3 ≤ n then some (List.replicate (n - 3) q.quote, []) else none
  | _, [] => none
  | mode, c :: rest =>
    match q.turn mode c with
    | none => none
    | some .endBehind => some ([], rest)
    | some (.endBefore written) => some (written, c :: rest)
    | some (.more written mode) =>
      (readFrom q mode rest).map fun (more, rest) => (written ++ more, rest)

/-- A text after its opening quotes; a line end right behind three quotes does not count. -/
def read (q : Quotes) (s : List Char) : Option (String × List Char) :=
  let s := match s with
    | '\n' :: rest => if q.multiline then rest else s
    | _ => s
  (q.readFrom .plain s).map fun (text, rest) => (String.ofList text, rest)

end Quotes

end MemberAccess.Toml
