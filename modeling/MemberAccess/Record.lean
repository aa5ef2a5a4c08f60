import MemberAccess.Class.Member

/-!
# Records

Host objects whose state is a table of named slots, and the ready-made behaviours that members of
their classes can have. A behaviour works on records of one kind, whatever the class of the object.

* `Behaviour.body`: what a behaviour does when it is run; arguments are read before the record.
-/

namespace MemberAccess

/-- A new record of some kind and class. -/
def Record.create (kind : String) (cls : ClassId) (slots : List (String × Value)) : Host Value :=
  Host.create cls (.record kind (Assoc.ofList slots))

/-- The slots of a value that is a record of some kind. -/
def Value.asRecord (kind : String) : Value → Host (ObjectRef × List (String × Value)) :=
  stateAs kind fun
    | .record k slots => if k = kind then some slots else none
    | _ => none

/-- What a member of a record class does. -/
inductive Behaviour where
  /-- answers a fixed value -/
  | const (v : Value)
  /-- answers a slot, null when it is unset -/
  | get (slot : String)
  /-- sets a slot to the first argument -/
  | set (slot : String)
  /-- answers an argument -/
  | arg (position : Nat)
  /-- answers a label with the texts of the arguments -/
  | echo (label : String)
  /-- adds one to a slot and answers it -/
  | count (slot : String)
  /-- answers the slot that the first argument names -/
  | load
  /-- sets the slot that the first argument names to the second and answers what was there -/
  | store
  /-- answers a new record of the class, its slots taken from the arguments in order -/
  | new (slots : List String)
  /-- answers an argument converted -/
  | convert (c : Value.Conversion) (position : Nat)
  | fail (f : HostFault)

namespace Record

/-- A slot, null when it is unset. -/
def slot (name : String) (slots : List (String × Value)) : Value := (Assoc.get? name slots).getD .null

/-- Sets a slot of a record. -/
def write (o : ObjectRef) (kind name : String) (v : Value) (slots : List (String × Value)) : Host Unit :=
  modify (·.setState o (.record kind (Assoc.put name v slots)))

end Record

open Record in
/-- Runs a behaviour of a class of records. -/
def Behaviour.body (kind : String) (owner : ClassId) (b : Behaviour) : Body := fun target args =>
  let arg (i : Nat) : Host Value := Host.ofExcept (argument args i)
  match b with
  | .const v => pure v
  | .get name => return slot name (← target.asRecord kind).2
  | .set name => do
    let v ← arg 0
    let (o, slots) ← target.asRecord kind
    write o kind name v slots
    pure .null
  | .arg i => arg i
  | .echo label => do
    let texts ← args.mapM (·.display)
    pure (.string (label ++ "(" ++ ", ".intercalate texts ++ ")"))
  | .count name => do
    let (o, slots) ← target.asRecord kind
    let n : Value := .int ((slot name slots).toIndex?.getD 0 + 1)
    write o kind name n slots
    pure n
  | .load => do
    let name ← (← arg 0).display
    return slot name (← target.asRecord kind).2
  | .store => do
    let name ← (← arg 0).display
    let v ← arg 1
    let (o, slots) ← target.asRecord kind
    write o kind name v slots
    pure (slot name slots)
  | .new names => create kind owner (names.zip args)
  | .convert c i => Host.ofExcept (convertedArgument args i c)
  | .fail f => Host.fail f

end MemberAccess
