import MemberAccess.Access
import MemberAccess.Binding.Search

/-!
# Writers

A writer is a way found to write a property of the instances of one class, for values of some type.

* `Writer.search`: finds a writer of one family.
* `Writer.access`: the access that writes a value to the property it is bound to.
* `Writer.replay?`: the access for a target, a property and a value that match, if they do.
-/

namespace MemberAccess

/-- The families of writers. -/
inductive WriteFamily where
  | field
  | map
  | list
  | setter
  | duck
deriving DecidableEq

/-- The member that a writer goes through, the property it is bound to and, where it matters for
using it again, the type of the value it was found for. -/
inductive WriteRoute where
  | field (f : Field)
  | map (m : Method) (key : Value)
  | list (source : Indexed) (index : Int32)
  | setter (m : Method) (property : String) (type : Ty)
  | duck (m : Method) (key : Value) (type : Ty)

structure Writer where
  cls : ClassId
  route : WriteRoute

/-- Whether a field of some type plainly takes a value: null for a reference, a number that widens to a
primitive, and otherwise a value of the very class, or any for a field of the root class. -/
def Ty.plainlyTakes (declared : Ty) (v : Value) : Bool :=
  if v.isNull then !declared.isPrimitive
  else match declared, v.primitive? with
    | .primitive p, some actual => (actual.widening p).isSome
    | .primitive _, none => false
    | _, _ => declared.normalized = v.type || declared = .object

namespace WriteRoute

def family : WriteRoute → WriteFamily
  | field _ => .field
  | map .. => .map
  | list .. => .list
  | setter .. => .setter
  | duck .. => .duck

/-- The property that the writer is bound to. -/
def property : WriteRoute → Value
  | field f => .string f.name
  | map _ key => key
  | list _ index => .int index
  | setter _ name _ => .string name
  | duck _ key _ => key

/-- The class that declares the member; array elements have none. -/
def declaring? : WriteRoute → Option ClassId
  | field f => some f.declaring
  | list source _ => source.declaring?
  | map m _ | setter m _ _ | duck m _ _ => some m.declaring

/-- The same member for the same property. -/
def same : WriteRoute → WriteRoute → Bool
  | field f, field g => f.id = g.id
  | map m k, map n l => m.id = n.id && k = l
  | list s i, list t j => s.same t && i = j
  | setter m p _, setter n q _ => m.id = n.id && p = q
  | duck m k _, duck n l _ => m.id = n.id && k = l
  | _, _ => false

/-- The access that writes a value to the property that the writer is bound to. -/
def access (route : WriteRoute) (target v : Value) : Access :=
  match route with
  | field f => .writeField f target v
  | map m key | duck m key _ => .store m target [key, v] v
  | list .array index => .writeElement target index v
  | list (.list m) index => .store m target [.int index, v] v
  | setter m _ _ => .store m target [v] v

/-- Whether the parameter of a setter takes a value: null for a reference, and otherwise a value of the
type that the setter was found for or of the parameter's very type. -/
def setterTakes (type : Ty) (params : List Ty) (v : Value) : Bool :=
  match params with
  | [] => false
  | p :: _ => if v.isNull then !p.isPrimitive else v.type = type || p.normalized = v.type

/-- Whether the second parameter of a method takes a value: one of the type that it was found for, one
of its own primitive, and anything for a reference. -/
def duckTakes (type : Ty) (params : List Ty) (v : Value) : Bool :=
  match params[1]? with
  | none => false
  | some p =>
    if !v.isNull && v.type = type then true
    else if p.isPrimitive then v.primitive? = p.primitive?
    else true

/-- The access for another property and value, if they match. -/
def replay? (route : WriteRoute) (target key v : Value) : Option Access :=
  match route with
  | field f =>
    if key.propertyName? = some f.name ∧ f.type.plainlyTakes v then some (route.access target v) else none
  | map m bound => if bound.type = key.type then some (.store m target [key, v] v) else none
  | list source _ => key.toIndex?.map fun i => (list source i).access target v
  | setter m name type =>
    if key.propertyName? = some name ∧ setterTakes type m.params v then some (route.access target v)
    else none
  | duck m bound type =>
    if key = bound ∧ duckTakes type m.params v then some (route.access target v) else none

end WriteRoute

namespace Writer

def family (b : Writer) : WriteFamily := b.route.family

def property (b : Writer) : Value := b.route.property

/-- Whether the member's class is still alive. -/
def isAlive (b : Writer) (r : Registry) : Bool := (b.route.declaring?.map r.isAlive).getD true

def same (a b : Writer) : Bool := a.cls = b.cls && a.route.same b.route

def access (b : Writer) (target v : Value) : Access := b.route.access target v

/-- The access for a target of the bound class, and a property and a value that match. Null is a target
only for fields, where it passes for an instance of the root class. -/
def replay? (b : Writer) (target key v : Value) : Option Access :=
  if target.cls = b.cls ∧ (target.isNull = true → b.family = .field) then b.route.replay? target key v
  else none

def invoke (b : Writer) (target v : Value) : Run Value := (b.access target v).run

def tryInvoke (b : Writer) (target key v : Value) : Run Outcome := attemptIf (b.replay? target key v)

/-- A field that can change and takes a value. -/
def searchField (r : Registry) (c : ClassId) (name : String) (v : Value) : Search (Option WriteRoute) := do
  let f ← Search.field r c name
  pure ((f.filter fun f => !f.isFinal && (conversionCost r f.type v.type).isSome).map .field)

/-- A writer through a method that takes a key and a value: `set`, or else `put`. -/
def searchDuck (r : Registry) (c : ClassId) (key v : Value) : Search (Option WriteRoute) := do
  match ← Search.method r c (.ofArgs "set" [key, v]) with
  | some m => pure (some (.duck m key v.type))
  | none => pure ((← Search.method r c (.ofArgs "put" [key, v])).map (.duck · key v.type))

/-- Finds the way of one family to write a property of a class. -/
def searchRoute (r : Registry) (c : ClassId) (key v : Value) : WriteFamily → Search (Option WriteRoute)
  | .field => match key.propertyName? with
    | none => pure none
    | some name => searchField r c name v
  | .map =>
    if r.isAssignable c .map then
      return (← Search.method r c (.ofArgs "put" [key, v])).map (.map · key)
    else pure none
  | .list => match key.toIndex? with
    | none => pure none
    | some i => return (← Indexed.search r c (.ofArgs "set" [.int i, v])).map (.list · i)
  | .setter => match key.propertyName? with
    | none => pure none
    | some name => return (← Search.accessor r c "set" name [v]).map (.setter · name v.type)
  | .duck => searchDuck r c key v

/-- Finds a writer of one family for a property of a class and a value. -/
def search (r : Registry) (c : ClassId) (key v : Value) (family : WriteFamily) :
    Search (Option Writer) :=
  return (← searchRoute r c key v family).map (⟨c, ·⟩)

end Writer

end MemberAccess
