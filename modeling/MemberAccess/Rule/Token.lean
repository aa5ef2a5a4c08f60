import MemberAccess.Text.Alphanumeric
import MemberAccess.Text.Blank

/-!
# Tokens of rule texts

A rule text is names and five punctuation signs, between white space and comments that start with
`#` or `//` and run to the end of the line. `scan` cuts a text into its tokens with their positions; a
character that starts nothing ends the scan with a fault.
-/

namespace MemberAccess.Rule

/-- A place in a text: lines and columns count from one, columns by characters. -/
structure Position where
  line : Nat
  column : Nat
deriving DecidableEq

namespace Position

def start : Position := ⟨1, 1⟩

/-- The place after a character. -/
def after (p : Position) (c : Char) : Position :=
  if c = '\n' then ⟨p.line + 1, 1⟩ else ⟨p.line, p.column + 1⟩

end Position

inductive Token where
  | name (s : String)
  | opening
  | closing
  | semicolon
  | leftParen
  | rightParen
deriving DecidableEq

/-- A token and where it starts. -/
structure Lexeme where
  token : Token
  position : Position
deriving DecidableEq

/-- Why no token starts at a character. -/
inductive ScanFault where
  | loneSlash
  | strayCharacter (c : Char)
deriving DecidableEq

/-- How a text ends: at its end, or at a character that starts no token. -/
inductive Ending where
  | finish (p : Position)
  | broken (p : Position) (f : ScanFault)
deriving DecidableEq

def isNameChar (c : Char) : Bool :=
  Text.isAlphanumeric c || c == '_' || c == '$' || c == '.' || c == '*'

/-- The token of a punctuation sign. -/
def punctuation? : Char → Option Token
  | '\x7b' => some .opening
  | '\x7d' => some .closing
  | ';' => some .semicolon
  | '(' => some .leftParen
  | ')' => some .rightParen
  | _ => none

/-- What the scan is in the middle of. A slash and a name remember where they started, a name also its
characters so far, the last one first. -/
inductive Mode where
  | between
  | comment
  | slash (p : Position)
  | name (p : Position) (read : List Char)

/-- What a character outside comments and names does: white space leads on, a mark opens a comment, a
punctuation sign is a token, and a name starts with any of its characters. -/
def begin (p : Position) (c : Char) : Except ScanFault (List Lexeme × Mode) :=
  if Text.isBlank c then .ok ([], .between)
  else if c = '#' then .ok ([], .comment)
  else if c = '/' then .ok ([], .slash p)
  else match punctuation? c with
    | some t => .ok ([⟨t, p⟩], .between)
    | none => if isNameChar c then .ok ([], .name p [c]) else .error (.strayCharacter c)

/-- The name that a scan is in the middle of, as a token. -/
def Mode.pending : Mode → List Lexeme
  | .name p read => [⟨.name (String.ofList read.reverse), p⟩]
  | _ => []

/-- The tokens of the rest of a text, and how it ends. -/
def scanFrom : Mode → Position → List Char → List Lexeme × Ending
  | .slash at_, _, [] => ([], .broken at_ .loneSlash)
  | mode, p, [] => (mode.pending, .finish p)
  | mode, p, c :: rest =>
    let start (done : List Lexeme) : List Lexeme × Ending :=
      match begin p c with
      | .error f => (done, .broken p f)
      | .ok (tokens, next) =>
        let (more, ending) := scanFrom next (p.after c) rest
        (done ++ tokens ++ more, ending)
    match mode with
    | .between => start []
    | .comment => scanFrom (if c = '\n' then .between else .comment) (p.after c) rest
    | .slash at_ =>
      if c = '/' then scanFrom .comment (p.after c) rest else ([], .broken at_ .loneSlash)
    | .name at_ read =>
      if isNameChar c then scanFrom (.name at_ (c :: read)) (p.after c) rest
      else start mode.pending

/-- The tokens of a text, and how it ends. -/
def scan (text : String) : List Lexeme × Ending := scanFrom .between .start text.toList

end MemberAccess.Rule
