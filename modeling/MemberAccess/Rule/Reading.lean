import MemberAccess.Rule.Block
import MemberAccess.Rule.Token

/-!
# Reading rule texts

A rule text is a sequence of package blocks, each with class blocks in it, each with members in it:

    rules  := (NAME '{' class* '}')*
    class  := NAME '{' member* '}'
    member := NAME ';' | NAME '(' ')' ';'

Reading goes from place to place (`Place`), one token at a time; a token that does not fit, or the end
of the text at the wrong place, is reported with its position. Blocks of one class in one package add up.

* `Reading.step`: where a token leads.
* `readRules`: the rules of a text, or its first fault.
-/

namespace MemberAccess.Rule

/-- Where in the grammar a reading is, with the names and rules it has collected there. -/
inductive Place where
  | outside
  | packageNamed (pattern : String)
  | inPackage (pattern : String) (classes : ClassRules)
  | classNamed (pattern : String) (classes : ClassRules) (name : String)
  | inClass (pattern : String) (classes : ClassRules) (name : String)
  | memberNamed (pattern : String) (classes : ClassRules) (name member : String)
  | inParens (pattern : String) (classes : ClassRules) (name member : String)
  | afterParens (pattern : String) (classes : ClassRules) (name member : String)
deriving DecidableEq

/-- The rules read so far, and the place. -/
structure Reading where
  done : List PackageRule := []
  place : Place := .outside
deriving DecidableEq

/-- The rule of a class, empty when it has not come up. -/
def ClassRules.of (classes : ClassRules) (name : String) : ClassRule :=
  (Assoc.get? name classes).getD {}

/-- Enters a class block. -/
def ClassRules.enter (classes : ClassRules) (name : String) : ClassRules :=
  Assoc.put name (classes.of name) classes

/-- Denies a member of a class. -/
def ClassRules.add (classes : ClassRules) (name : String) (sort : MemberSort) (member : String) :
    ClassRules :=
  Assoc.put name ((classes.of name).add sort member) classes

/-- Where a token leads, if it fits. -/
def Reading.step (s : Reading) (t : Token) : Option Reading :=
  match s.place, t with
  | .outside, .name pattern => some { s with place := .packageNamed pattern }
  | .packageNamed pattern, .opening => some { s with place := .inPackage pattern [] }
  | .inPackage pattern classes, .closing =>
    some { done := s.done ++ [⟨pattern, classes⟩], place := .outside }
  | .inPackage pattern classes, .name name => some { s with place := .classNamed pattern classes name }
  | .classNamed pattern classes name, .opening =>
    some { s with place := .inClass pattern (classes.enter name) name }
  | .inClass pattern classes _, .closing => some { s with place := .inPackage pattern classes }
  | .inClass pattern classes name, .name member =>
    some { s with place := .memberNamed pattern classes name member }
  | .memberNamed pattern classes name member, .semicolon =>
    some { s with place := .inClass pattern (classes.add name .field member) name }
  | .memberNamed pattern classes name member, .leftParen =>
    some { s with place := .inParens pattern classes name member }
  | .inParens pattern classes name member, .rightParen =>
    some { s with place := .afterParens pattern classes name member }
  | .afterParens pattern classes name member, .semicolon =>
    some { s with place := .inClass pattern (classes.add name .method member) name }
  | _, _ => none

/-- Why a text is no rule text. -/
inductive Fault where
  | scan (f : ScanFault)
  | unexpected (place : Place)
  | unfinished (place : Place)
deriving DecidableEq

/-- What the grammar wants at a place, when a token does not fit. -/
def Place.wanted : Place → String
  | .outside => "package name"
  | .packageNamed _ | .classNamed .. => "'\x7b'"
  | .inPackage .. => "class name or '\x7d'"
  | .inClass .. => "member name or '\x7d'"
  | .memberNamed .. => "';' or '()'"
  | .inParens .. => "')'"
  | .afterParens .. => "';'"

def Fault.message : Fault → String
  | .scan .loneSlash => "expected '//' comment"
  | .scan (.strayCharacter c) => "unexpected character '" ++ String.singleton c ++ "'"
  | .unexpected place => "expected " ++ place.wanted
  | .unfinished (.inPackage ..) => "unterminated package block"
  | .unfinished (.inClass ..) => "unterminated class block"
  | .unfinished (.memberNamed ..) => "unterminated member"
  | .unfinished place => "expected " ++ place.wanted ++ ", found end of input"

/-- A fault in a rule text and where it is. -/
structure Error where
  position : Position
  fault : Fault
deriving DecidableEq

def Error.message (e : Error) : String :=
  "Permission rule syntax error at " ++ Nat.repr e.position.line ++ ":" ++ Nat.repr e.position.column ++
    ": " ++ e.fault.message

/-- Reads on with the rest of the tokens. -/
def Reading.run (s : Reading) (ending : Ending) : List Lexeme → Except Error (List PackageRule)
  | [] =>
    match ending, s.place with
    | .broken p f, _ => .error ⟨p, .scan f⟩
    | .finish _, .outside => .ok s.done
    | .finish p, place => .error ⟨p, .unfinished place⟩
  | l :: rest =>
    match s.step l.token with
    | some s => s.run ending rest
    | none => .error ⟨l.position, .unexpected s.place⟩

/-- The rules of a text. -/
def readRules (text : String) : Except Error (List PackageRule) :=
  let (lexemes, ending) := scan text
  Reading.run {} ending lexemes

end MemberAccess.Rule
