import MemberAccess.Class.Declaration

/-!
# The class registry

A registry is the list of its classes, each at the position that is its identity, and the classes
that have been retired. Names and array classes are found by searching the list.

* `Registry.register`, `Registry.arrayClass`: the two ways a class comes in, always at the end.
* `Registry.retire`: a class and its members are dead from then on.
* `Registry.class?`, `Registry.named?`: classes by position and by qualified name.
-/

namespace MemberAccess

structure Registry where
  classes : List ClassDef := []
  retired : List ClassId := []

namespace Registry

def size (r : Registry) : Nat := r.classes.length

/-- The position that the next class gets. -/
def next (r : Registry) : ClassId := ⟨r.size⟩

def class? (r : Registry) (c : ClassId) : Option ClassDef := r.classes[c.index]?

/-- The class of a qualified name. An array class takes its name over from an earlier class. -/
def named? (r : Registry) (name : String) : Option ClassDef :=
  r.classes.reverse.find? (·.qualifiedName = name)

def idOf? (r : Registry) (name : String) : Option ClassId := (r.named? name).map (·.id)

/-- The array class of a component, once it has been made. -/
def arrayOf? (r : Registry) (component : Ty) : Option ClassId :=
  (r.classes.find? (·.component = some component)).map (·.id)

def isAlive (r : Registry) (c : ClassId) : Bool := !r.retired.contains c

/-- The written form of a type: qualified names, and bare identities for unknown classes. -/
def typeName (r : Registry) : Ty → String
  | .primitive p => p.name
  | .null => "null"
  | .ofClass c => match r.class? c with
    | some d => d.qualifiedName
    | none => c.text

/-- The registry with one more class, made for its position. -/
def push (r : Registry) (make : ClassId → ClassDef) : Registry :=
  { r with classes := r.classes ++ [make r.next] }

/-- Registers a class under a name that is free and with supertypes that are registered. -/
def register (r : Registry) (d : ClassDecl) : Except HostFault (ClassId × Registry) :=
  let known (c : ClassId) : Bool := c.index < r.size
  if (r.named? d.qualifiedName).isSome then .error (.duplicateClass d.qualifiedName)
  else match d.superclass.filter (!known ·), d.interfaces.find? (!known ·) with
    | some s, _ => .error (.failure ("unknown superclass " ++ s.text))
    | none, some i => .error (.failure ("unknown interface " ++ i.text))
    | none, none => .ok (r.next, r.push (.ofDecl · d))

/-- The array class of a component, made when it is asked for the first time. -/
def arrayClass (r : Registry) (component : Ty) : ClassId × Registry :=
  match r.arrayOf? component with
  | some c => (c, r)
  | none => (r.next, r.push (.ofArray · (r.typeName component ++ "[]") component))

/-- A new array; one of a primitive component takes only values of that kind. The array class is made
when the elements have been accepted. -/
def newArray (r : Registry) (h : Heap) (component : Ty) (items : List Value) :
    Except HostFault (ArrayRef × Registry × Heap) := do
  items.forM (ArrayRef.accepts component)
  let (c, r) := r.arrayClass component
  let (a, h) := h.newArray c component items
  pure (a, r, h)

/-- Retires a class; whether it was known and alive. -/
def retire (r : Registry) (c : ClassId) : Bool × Registry :=
  if (r.class? c).isSome && r.isAlive c then (true, { r with retired := c :: r.retired })
  else (false, r)

/-- The distinct packages that have a name, in order. -/
def packages (r : Registry) : List String :=
  ((r.classes.map (·.package)).filter (· ≠ "")).eraseDups.mergeSort fun a b => a ≤ b

def hasPackage (r : Registry) (package : String) : Bool := r.classes.any (·.package = package)

def superclass? (r : Registry) (c : ClassId) : Option ClassId := (r.class? c).bind (·.superclass)

def interfaces (r : Registry) (c : ClassId) : List ClassId :=
  ((r.class? c).map (·.interfaces)).getD []

end Registry

end MemberAccess
