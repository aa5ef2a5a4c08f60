import MemberAccess.Toml.Node
import MemberAccess.Toml.Scalar
import MemberAccess.Toml.Text

/-!
# Reading documents

A document is lines: pairs `key = value`, headers `[key]` and `[[key]]`, comments and blank lines. Keys
are dotted paths of words and quoted texts. Reading goes from the front, and every step takes at least
one character, so the length of the text bounds it.

* `Node.ofText?`: the tree of a document, none when it is not well formed.
-/

namespace MemberAccess.Toml

/-- A step of reading: what it found, with what follows, if it fits. -/
abbrev Scan := StateT (List Char) Option

namespace Scan

/-- The next character, left where it is. -/
def peek : Scan (Option Char) := return (← get).head?

/-- Takes a character if it is next. -/
def accept (c : Char) : Scan Bool := do
  match ← get with
  | d :: rest => if c = d then set rest; pure true else pure false
  | [] => pure false

def expect (c : Char) : Scan Unit := do
  guard (← accept c)

def takeWhile (p : Char → Bool) : Scan (List Char) := modifyGet fun s => (s.takeWhile p, s.dropWhile p)

/-- White space on one line. -/
def blanks : Scan Unit := do
  let _ ← takeWhile fun c => c = ' ' || c = '\t'

/-- A comment, if one is next. -/
def comment : Scan Unit := do
  if ← accept '#' then
    let _ ← takeWhile isTextChar

/-- What may follow on a line that is complete, with its end. -/
def lineEnd : Scan Unit := do
  blanks
  comment
  guard ((← peek).isNone || (← accept '\n'))

/-- White space, comments and line ends, up to so many lines. -/
def blankLines : Nat → Scan Unit
  | 0 => blanks
  | n + 1 => do
    blanks
    match ← peek with
    | some '#' | some '\n' => do
      comment
      expect '\n'
      blankLines n
    | _ => pure ()

/-- A text with some quotes. -/
def quoted (q : Quotes) : Scan String := fun s => q.read s

/-- A text on one line, its quote being next. -/
def lineText (quote : Char) : Scan String := do
  expect quote
  quoted ⟨quote, quote = '"', false⟩

/-- A text, its quote being next. -/
def text (quote : Char) : Scan String := fun s =>
  match s with
  | a :: b :: c :: rest =>
    if [a, b, c].all (· = quote) then quoted ⟨quote, quote = '"', true⟩ rest else lineText quote s
  | _ => lineText quote s

/-- A word without quotes, of letters, digits and some signs. -/
def word (signs : List Char) : Scan (List Char) := do
  let w ← takeWhile fun c => c.isAlphanum || signs.contains c
  guard (!w.isEmpty)
  pure w

/-- One part of a key. -/
def keyPart : Scan String := do
  blanks
  match ← peek with
  | some '"' => lineText '"'
  | some '\'' => lineText '\''
  | _ => return String.ofList (← word ['-', '_'])

/-- The parts of a key, at most so many. -/
def keyParts : Nat → Scan (List String)
  | 0 => failure
  | n + 1 => do
    let part ← keyPart
    blanks
    if ← accept '.' then return part :: (← keyParts n) else pure [part]

/-- Texts, arrays and tables nest less deep than this, and keys have fewer parts. -/
def depthLimit : Nat := 80

/-- A key: the path to a table, and the name in it. -/
def key : Scan (List String × String) := do
  let parts ← keyParts (depthLimit - 1)
  pure (parts.dropLast, ← parts.getLast?)

/-- A value without quotes. A date and a time may have one blank between them. -/
def scalar : Scan Node := do
  let signs := ['-', '+', '_', '.', ':']
  let w ← word signs
  if w = "true".toList then pure (.boolean true)
  else if w = "false".toList then pure (.boolean false)
  else if isInteger w || isFloat w then pure .plain
  else
    let w ← match afterDate? w, ← get with
      | some [], ' ' :: c :: _ =>
        if c.isDigit then
          expect ' '
          pure (w ++ ' ' :: (← word signs))
        else pure w
      | _, _ => pure w
    guard (isDateTime w)
    pure .plain

mutual

/-- A value, with so many more levels of nesting. The first number bounds the steps. -/
def value : Nat → Nat → Scan Node
  | 0, _ => failure
  | n + 1, room => do
    blanks
    match ← peek, room with
    | some '"', _ => return .string (← text '"')
    | some '\'', _ => return .string (← text '\'')
    | some '[', inner + 1 => do
      expect '['
      return .array (← items n inner)
    | some '\x7b', inner + 1 => do
      expect '\x7b'
      blanks
      if ← accept '\x7d' then Node.ofPairs [] else Node.ofPairs (← pairs n inner)
    | some '[', 0 | some '\x7b', 0 => failure
    | _, _ => scalar

/-- The rest of an array, behind its bracket or a comma. -/
def items : Nat → Nat → Scan (List Node)
  | 0, _ => failure
  | n + 1, room => do
    let blankLines : Scan Unit := do blankLines (← get).length
    blankLines
    if ← accept ']' then pure []
    else
      let v ← value n room
      blankLines
      if ← accept ',' then return v :: (← items n room)
      else
        expect ']'
        pure [v]

/-- The rest of a table between braces, behind its brace or a comma. -/
def pairs : Nat → Nat → Scan (List (List String × String × Node))
  | 0, _ => failure
  | n + 1, room => do
    let (path, name) ← key
    expect '='
    let v ← value n room
    blanks
    if ← accept ',' then return (path, name, v) :: (← pairs n room)
    else
      expect '\x7d'
      pure [(path, name, v)]

end

/-- The tree so far, and the path of the table that pairs are added to. -/
structure Draft where
  tree : Node := .root
  path : List String := []

/-- Adds a pair to the table that is open. -/
def Draft.add (d : Draft) (path : List String) (name : String) (v : Node) : Option Draft := do
  let tree ← d.tree.edit .implied (fun o entries => (Node.table o entries).assign path name v) d.path
  some { d with tree }

/-- One line that is not blank. -/
def line (d : Draft) : Scan Draft := do
  if ← accept '[' then
    let element ← accept '['
    let (path, name) ← key
    expect ']'
    if element then expect ']'
    lineEnd
    let tree ← if element then d.tree.openElement path name else d.tree.openTable path name
    pure ⟨tree, path ++ [name]⟩
  else
    let (path, name) ← key
    expect '='
    let v ← value (2 * (← get).length + 2) (depthLimit - 1)
    lineEnd
    d.add path name v

/-- All lines, at most so many. -/
def lines : Nat → Draft → Scan Node
  | 0, _ => failure
  | n + 1, d => do
    blanks
    match ← peek with
    | none => pure d.tree
    | some '#' | some '\n' => do
      lineEnd
      lines n d
    | some _ => lines n (← line d)

end Scan

/-- A text with its line ends as single line feeds. -/
def normalized : List Char → List Char
  | '\r' :: '\n' :: rest => '\n' :: normalized rest
  | c :: rest => c :: normalized rest
  | [] => []

/-- The tree of a document. A byte order mark in front does not count. -/
def Node.ofText? (s : String) : Option Node :=
  let body := match normalized s.toList with
    | '\ufeff' :: rest => rest
    | body => body
  ((Scan.lines (body.length + 1) {}).run body).map (·.1)

end MemberAccess.Toml
