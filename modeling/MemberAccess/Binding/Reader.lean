import MemberAccess.Access
import MemberAccess.Binding.Search
import MemberAccess.Number.Numeral

/-!
# Readers

A reader is a way found to read a property of the instances of one class. It is bound to that class and
to the property it was found for, and can be used again while both still match.

* `Reader.search`: finds a reader of one family.
* `Reader.access`: the access for a target, with the property it is bound to.
* `Reader.replay?`: the access for a target and a property that match, if they do.
-/

namespace MemberAccess

/-- The families of readers. -/
inductive ReadFamily where
  | field
  | map
  | list
  | getter
  | flag
  | duck
deriving DecidableEq

/-- The member that a reader goes through, and the property it is bound to. -/
inductive ReadRoute where
  | field (f : Field)
  | map (m : Method) (key : Value)
  | list (source : Indexed) (index : Int32)
  | getter (m : Method) (property : String)
  | flag (m : Method) (property : String)
  /-- `argument` is what is passed for the key: itself, or the int that it spells -/
  | duck (m : Method) (key argument : Value)

structure Reader where
  cls : ClassId
  route : ReadRoute

namespace ReadRoute

def family : ReadRoute → ReadFamily
  | field _ => .field
  | map .. => .map
  | list .. => .list
  | getter .. => .getter
  | flag .. => .flag
  | duck .. => .duck

/-- The property that the reader is bound to. -/
def property : ReadRoute → Value
  | field f => .string f.name
  | map _ key => key
  | list _ index => .int index
  | getter _ name | flag _ name => .string name
  | duck _ key _ => key

/-- The class that declares the member; array elements have none. -/
def declaring? : ReadRoute → Option ClassId
  | field f => some f.declaring
  | list source _ => source.declaring?
  | map m _ | getter m _ | flag m _ | duck m _ _ => some m.declaring

/-- The same member for the same property. -/
def same : ReadRoute → ReadRoute → Bool
  | field f, field g => f.id = g.id
  | map m k, map n l => m.id = n.id && k = l
  | list s i, list t j => s.same t && i = j
  | getter m p, getter n q | flag m p, flag n q => m.id = n.id && p = q
  | duck m k _, duck n l _ => m.id = n.id && k = l
  | _, _ => false

/-- The access with the property that the reader is bound to. -/
def access (route : ReadRoute) (target : Value) : Access :=
  match route with
  | field f => .readField f target
  | map m key => .call m target [key]
  | list .array index => .readElement target index
  | list (.list m) index => .call m target [.int index]
  | getter m _ | flag m _ => .call m target []
  | duck m _ argument => .call m target [argument]

/-- The access for another property, if it matches: a name must be the same, the key of a map of one
class, an index only a number, and any other key equal. -/
def replay? (route : ReadRoute) (target key : Value) : Option Access :=
  match route with
  | field f => if key.propertyName? = some f.name then some (route.access target) else none
  | map m bound => if bound.type = key.type then some (.call m target [key]) else none
  | list source _ => key.toIndex?.map fun i => (list source i).access target
  | getter _ name | flag _ name =>
    if key.propertyName? = some name then some (route.access target) else none
  | duck _ bound _ => if key = bound then some (route.access target) else none

/-- Whether a read may be folded: constants and enum constants. -/
def isConstant : ReadRoute → Bool
  | field f => f.isConstant
  | _ => false

end ReadRoute

namespace Reader

def family (b : Reader) : ReadFamily := b.route.family

def property (b : Reader) : Value := b.route.property

/-- Whether the member's class is still alive. -/
def isAlive (b : Reader) (r : Registry) : Bool := (b.route.declaring?.map r.isAlive).getD true

def isConstant (b : Reader) : Bool := b.route.isConstant

def same (a b : Reader) : Bool := a.cls = b.cls && a.route.same b.route

def access (b : Reader) (target : Value) : Access := b.route.access target

/-- The access for a target of the bound class and a property that matches. Null is a target only for
fields, where it passes for an instance of the root class. -/
def replay? (b : Reader) (target key : Value) : Option Access :=
  if target.cls = b.cls ∧ (target.isNull = true → b.family = .field) then b.route.replay? target key
  else none

def invoke (b : Reader) (target : Value) : Run Value := (b.access target).run

def tryInvoke (b : Reader) (target key : Value) : Run Outcome := attemptIf (b.replay? target key)

/-- A reader through the method `get` for a key. A text that no such method takes is tried again as the
int that it spells. -/
def searchDuck (r : Registry) (c : ClassId) (key : Value) : Search (Option ReadRoute) := do
  match ← Search.method r c (.ofArgs "get" [key]) with
  | some m => pure (some (.duck m key key))
  | none =>
    match key.toString?.bind Number.readInt32 with
    | none => pure none
    | some n =>
      pure ((← Search.method r c (.ofArgs "get" [.int n])).map (.duck · key (.int n)))

/-- A reader through a method named after a property. -/
def searchAccessor (r : Registry) (c : ClassId) (lead : String) (key : Value)
    (route : Method → String → ReadRoute) : Search (Option ReadRoute) :=
  match key.propertyName? with
  | none => pure none
  | some name => return (← Search.accessor r c lead name []).map (route · name)

/-- Finds the way of one family to read a property of a class. -/
def searchRoute (r : Registry) (c : ClassId) (key : Value) : ReadFamily → Search (Option ReadRoute)
  | .field => match key.propertyName? with
    | none => pure none
    | some name => return (← Search.field r c name).map .field
  | .map =>
    if r.isAssignable c .map then return (← Search.method r c (.ofArgs "get" [key])).map (.map · key)
    else pure none
  | .list => match key.toIndex? with
    | none => pure none
    | some i => return (← Indexed.search r c (.ofTypes "get" [.int])).map (.list · i)
  | .getter => searchAccessor r c "get" key .getter
  | .flag => return (← searchAccessor r c "is" key .flag).filter fun
      -- what `is` finds is a flag only when it answers a boolean
      | .flag m _ => m.returns.isBoolean
      | _ => false
  | .duck => searchDuck r c key

/-- Finds a reader of one family for a property of a class. -/
def search (r : Registry) (c : ClassId) (key : Value) (family : ReadFamily) : Search (Option Reader) :=
  return (← searchRoute r c key family).map (⟨c, ·⟩)

end Reader

end MemberAccess
