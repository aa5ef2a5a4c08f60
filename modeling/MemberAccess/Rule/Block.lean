import MemberAccess.Assoc
import MemberAccess.Class.Declaration
import MemberAccess.Text.Split

/-!
# Deny rules

A rule names packages by a pattern and either denies them outright or says which of their classes or
members are denied.

* `Pattern.covers`: `*` and `**` cover every package, `p.**` a package and those below it, `p.*` only
  those below it, and a name without a star itself.
* `PackageRule.deniesClass`, `PackageRule.deniesMember`: what a rule takes away.
-/

namespace MemberAccess.Rule

/-- Whether a package lies strictly below another: at least one more character after a point. -/
def isBelow (parent package : List Char) : Bool :=
  match Text.after? parent package with
  | some ('.' :: _ :: _) => true
  | _ => false

/-- Whether a package is another one, or its name goes on after a point. -/
def isWithin (parent package : List Char) : Bool :=
  match Text.after? parent package with
  | some [] | some ('.' :: _) => true
  | _ => false

/-- Whether a pattern covers a package. -/
def covers (pattern package : List Char) : Bool :=
  if pattern = ['*', '*'] || pattern = ['*'] then true
  else match Text.before? ['.', '*', '*'] pattern with
    | some parent => isWithin parent package
    | none => match Text.before? ['.', '*'] pattern with
      | some parent => isBelow parent package
      | none => pattern = package

/-- The two sorts of names that a rule can deny; constructors go with the methods. -/
inductive MemberSort where
  | field
  | method
deriving DecidableEq

/-- What is denied of a class; all of it when no member is named. -/
structure ClassRule where
  fields : List String := []
  methods : List String := []
deriving DecidableEq

namespace ClassRule

def deniesAll (r : ClassRule) : Bool := r.fields.isEmpty && r.methods.isEmpty

def denies (r : ClassRule) : MemberSort → String → Bool
  | .field, name => r.fields.contains name
  | .method, name => r.methods.contains name

def add (r : ClassRule) : MemberSort → String → ClassRule
  | .field, name => { r with fields := r.fields ++ [name] }
  | .method, name => { r with methods := r.methods ++ [name] }

end ClassRule

/-- The classes that a package block names. -/
abbrev ClassRules := List (String × ClassRule)

/-- What is denied of the packages that a pattern covers; all of them when no class is named. -/
structure PackageRule where
  pattern : String
  classes : ClassRules
deriving DecidableEq

namespace PackageRule

def deniesAll (r : PackageRule) : Bool := r.classes.isEmpty

def covers (r : PackageRule) (package : String) : Bool := Rule.covers r.pattern.toList package.toList

/-- Whether the pattern is the name of one package. -/
def isLiteral (r : PackageRule) : Bool := !r.pattern.toList.contains '*'

def deniesPackage (r : PackageRule) (package : String) : Bool := r.deniesAll && r.covers package

def deniesClass (r : PackageRule) (d : ClassDef) : Bool :=
  r.covers d.package &&
    (r.deniesAll || ((Assoc.get? d.name r.classes).map (·.deniesAll)).getD false)

def deniesMember (r : PackageRule) (d : ClassDef) (sort : MemberSort) (name : String) : Bool :=
  r.covers d.package && ((Assoc.get? d.name r.classes).map (·.denies sort name)).getD false

end PackageRule

end MemberAccess.Rule
