import MemberAccess.Introspection.ClassMap

/-!
# Accesses

An access is one use of a member or of an array element, with everything it is used with: what a
binding decides to do is an access, and running it is the only way host code is reached.

* `Access.run`: does the access; a failure names the member.
* `Access.attempt`: the same, but a field that refuses counts as not tried.
-/

namespace MemberAccess

inductive Access where
  /-- calls a method -/
  | call (m : Method) (target : Value) (args : List Value)
  /-- calls a method for its effect and answers the value it was given -/
  | store (m : Method) (target : Value) (args : List Value) (v : Value)
  | readField (f : Field) (target : Value)
  | writeField (f : Field) (target v : Value)
  | readElement (target : Value) (index : Int32)
  | writeElement (target : Value) (index : Int32) (v : Value)
  /-- makes an instance of the class of a name -/
  | create (c : Constructor) (name : String) (args : List Value)

/-- Failures of an access and of the search for one. -/
inductive AccessError where
  | ambiguous (a : AmbiguousCall)
  | failed (member : String) (f : HostFault)
  | endless
deriving DecidableEq

def AccessError.message : AccessError → String
  | .ambiguous a => a.message
  | .failed member f => "Invocation of '" ++ member ++ "' failed: " ++ f.message
  | .endless => ""

/-- A run that may fail as an access does. -/
abbrev Run := ExceptT AccessError (StateM Heap)

/-- The result of trying a binding: the access was done, or the binding does not apply. -/
inductive Outcome where
  | done (v : Value)
  | stale
deriving DecidableEq

/-- The array behind a value. -/
def Value.asArray : Value → Except HostFault ArrayRef
  | .array a => .ok a
  | .null => .error .nullTarget
  | v => .error (v.mismatch "array")

namespace Access

/-- The name under which a failure is reported. -/
def member : Access → String
  | call m _ _ | store m _ _ _ => m.name
  | readField f _ | writeField f _ _ => f.name
  | readElement .. | writeElement .. => "[]"
  | create _ name _ => name

/-- The host code of an access, and its answer. A write answers the value written. -/
def host : Access → Host Value
  | call m target args => m.invoke target args
  | store m target args v => do
    let _ ← m.invoke target args
    pure v
  | readField f target => f.get target
  | writeField f target v => do
    f.set target v
    pure v
  | readElement target index => do (← Host.ofExcept target.asArray).get index
  | writeElement target index v => do
    (← Host.ofExcept target.asArray).set index v
    pure v
  | create c _ args => c.create args

/-- Whether a refusal of the member means that the binding does not apply. -/
def mayRefuse : Access → Bool
  | readField .. | writeField .. => true
  | _ => false

/-- The failure of an access when its host code stops. -/
def error (a : Access) : Halt → AccessError
  | .fault f => .failed a.member f
  | .endless => .endless

def run (a : Access) : Run Value := ExceptT.adapt a.error a.host

def attempt (a : Access) : Run Outcome := fun h =>
  match a.host h with
  | (.ok v, h) => (.ok (.done v), h)
  | (.error halt, h) =>
    match a.mayRefuse, halt with
    | true, .fault (.illegalAccess _) => (.ok .stale, h)
    | _, _ => (.error (a.error halt), h)

end Access

/-- Tries the access that a binding has for a situation, if it has one. -/
def attemptIf : Option Access → Run Outcome
  | some a => a.attempt
  | none => pure .stale

end MemberAccess
