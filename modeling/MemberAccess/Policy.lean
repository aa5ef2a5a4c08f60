import MemberAccess.Rule.Reading

/-!
# Access policies

A policy says which classes and members scripts may see. It starts open or with the core packages
only, and is then layered: grants of named classes, and deny rules, which only ever take away.

* `Policy.compose`: a policy with the rules of a text denied.
* `Policy.allowsClass`, `Policy.allowsMethod`, `Policy.allowsField`, `Policy.allowsConstructor`: what is
  visible.
-/

namespace MemberAccess

open Rule (MemberSort PackageRule)

inductive Policy where
  | unrestricted
  | restricted
  | granting (base : Policy) (names : List String)
  | narrowed (base : Policy) (rules : List PackageRule)
deriving DecidableEq

namespace Policy

/-- The packages that a restricted policy shows. -/
def corePackages : List String := ["kiln.lang", "kiln.util"]

/-- The policy with some classes shown as well, by their qualified names. -/
def withClasses (p : Policy) (names : List String) : Policy := .granting p names.eraseDups

/-- The policy with rules denied; without a rule it stays as it is. -/
def narrow (p : Policy) (rules : List PackageRule) : Policy :=
  if rules.isEmpty then p else .narrowed p rules

/-- The policy with the rules of a text denied. -/
def compose (p : Policy) (text : String) : Except Rule.Error Policy :=
  (Rule.readRules text).map p.narrow

def isUnrestricted : Policy → Bool
  | unrestricted => true
  | _ => false

/-- Whether a package may hold visible classes. -/
def allowsPackage (package : String) : Policy → Bool
  | unrestricted => true
  | restricted => corePackages.contains package
  | granting base names =>
    base.allowsPackage package || names.any fun n => (Text.splitLast '.' n).map (·.1) = some package
  | narrowed base rules => base.allowsPackage package && !rules.any (·.deniesPackage package)

/-- Whether a class is visible, arrays apart. -/
def showsClass (d : ClassDef) : Policy → Bool
  | unrestricted => true
  | restricted => restricted.allowsPackage d.package
  | granting base names => names.contains d.qualifiedName || base.showsClass d
  | narrowed base rules => base.showsClass d && !rules.any (·.deniesClass d)

/-- Whether a class is visible; arrays always are. -/
def allowsClass (p : Policy) (d : ClassDef) : Bool := d.isArray || p.showsClass d

/-- Whether some layer denies a member of a class. -/
def deniesMember (d : ClassDef) (sort : MemberSort) (name : String) : Policy → Bool
  | unrestricted | restricted => false
  | granting base _ => base.deniesMember d sort name
  | narrowed base rules => base.deniesMember d sort name || rules.any (·.deniesMember d sort name)

def allowsMethod (p : Policy) (d : ClassDef) (m : Method) : Bool :=
  p.allowsClass d && !p.deniesMember d .method m.name

def allowsField (p : Policy) (d : ClassDef) (f : Field) : Bool :=
  p.allowsClass d && !p.deniesMember d .field f.name

/-- Constructors go by the name of their class. -/
def allowsConstructor (p : Policy) (d : ClassDef) : Bool :=
  p.allowsClass d && !p.deniesMember d .method d.name

/-- The packages that rules name outright, the innermost layer first. -/
def rulePackages : Policy → List String
  | unrestricted | restricted => []
  | granting base _ => base.rulePackages
  | narrowed base rules => base.rulePackages ++ (rules.filter (·.isLiteral)).map (·.pattern)

end Policy

end MemberAccess
