import MemberAccess.Heap

/-!
# Members of classes

Methods, fields and constructors, first as they are declared and then as a registry keeps them, with
the class that declares them and their position among its members of that sort. Class and position
together are the identity of a member (`MemberId`).

* `Method.invoke`, `Constructor.create`: a call with too few arguments never reaches the body.
* `Field.set`: only a field that can change runs host code when it is written.
-/

namespace MemberAccess

/-- What runs when a method is called: the target and the arguments are given. -/
abbrev Body := Value → List Value → Host Value

/-- A body that leaves the heap alone. -/
def Body.ofPure (f : Value → List Value → Except HostFault Value) : Body := fun target args =>
  Host.ofExcept (f target args)

/-- Which member: the class that declares it and its position among the members of its sort. -/
structure MemberId where
  declaring : ClassId
  position : Nat
deriving DecidableEq

structure MethodDecl where
  name : String
  params : List Ty
  returns : Ty
  modifiers : Modifiers
  body : Body

structure Method extends MethodDecl where
  id : MemberId

namespace Method

def declaring (m : Method) : ClassId := m.id.declaring

def isPublic (m : Method) : Bool := m.modifiers.isPublic

def isStatic (m : Method) : Bool := m.modifiers.isStatic

def invoke (m : Method) (target : Value) (args : List Value) : Host Value :=
  if args.length < m.params.length then Host.fail (.missingArgument args.length)
  else m.body target args

end Method

/-- Where the value of a field comes from, and whether it can change. -/
inductive Storage where
  | cell (read : Value → Host Value) (write : Value → Value → Host Unit)
  | readOnly (read : Value → Host Value)
  | constant (v : Value)
  | enumConstant (v : Value)

structure FieldDecl where
  name : String
  type : Ty
  isPublic : Bool
  storage : Storage

structure Field extends FieldDecl where
  id : MemberId

namespace FieldDecl

/-- The flags of a field follow from its storage. -/
def modifiers (f : FieldDecl) : Modifiers :=
  let base : Modifiers := { Modifiers.concealed with isPublic := f.isPublic }
  match f.storage with
  | .cell .. => base
  | .readOnly _ => base.asFinal
  | .constant _ => base.asStatic.asFinal
  | .enumConstant _ => base.asEnumConstant

def isStatic (f : FieldDecl) : Bool := f.modifiers.isStatic

def isFinal (f : FieldDecl) : Bool := f.modifiers.isFinal

/-- An enum constant, or static and final: a read may be folded. -/
def isConstant (f : FieldDecl) : Bool :=
  f.modifiers.isEnumConstant || (f.modifiers.isStatic && f.modifiers.isFinal)

def get (f : FieldDecl) (target : Value) : Host Value :=
  match f.storage with
  | .cell read _ | .readOnly read => read target
  | .constant v | .enumConstant v => pure v

/-- Writes a field; one that cannot change refuses. -/
def set (f : FieldDecl) (target v : Value) : Host Unit :=
  match f.storage with
  | .cell _ write => write target v
  | _ => Host.fail (.illegalAccess ("field '" ++ f.name ++ "' is final"))

end FieldDecl

def Field.declaring (f : Field) : ClassId := f.id.declaring

structure ConstructorDecl where
  params : List Ty
  modifiers : Modifiers
  make : List Value → Host Value

structure Constructor extends ConstructorDecl where
  id : MemberId

namespace Constructor

def declaring (c : Constructor) : ClassId := c.id.declaring

def isPublic (c : Constructor) : Bool := c.modifiers.isPublic

def create (c : Constructor) (args : List Value) : Host Value :=
  if args.length < c.params.length then Host.fail (.missingArgument args.length)
  else c.make args

end Constructor

end MemberAccess
