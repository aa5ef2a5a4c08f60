import MemberAccess.Heap

/-!
# Lists and maps

The two containers that come with the core classes. A list is a sequence with bounds; a map is a
finite map whose keys are told apart by the equality of values.
-/

namespace MemberAccess

/-- The kind of a list's state, as messages name it. -/
def listKind : String := "kiln_sdk::builtins::ListObject"

/-- The kind of a map's state, as messages name it. -/
def mapKind : String := "kiln_sdk::builtins::MapObject"

namespace Value

/-- The list behind a value. -/
def asList : Value → Host (ObjectRef × List Value) :=
  stateAs listKind fun
    | .list items => some items
    | _ => none

/-- The map behind a value. -/
def asMap : Value → Host (ObjectRef × List (Value × Value)) :=
  stateAs mapKind fun
    | .map entries => some entries
    | _ => none

end Value

namespace Containers

def newList (items : List Value) : Host Value := Host.create .arrayList (.list items)

/-- A new map; of two entries with equal keys the later one counts. -/
def newMap (entries : List (Value × Value)) : Host Value :=
  Host.create .hashMap (.map (Assoc.ofList entries))

def listGet (target : Value) (index : Int32) : Host Value := do
  let (_, items) ← target.asList
  let i ← Host.ofExcept (checkIndex index items.length)
  pure (items[i]?.getD .null)

/-- Replaces the element at an index and answers the one that was there. -/
def listSet (target : Value) (index : Int32) (v : Value) : Host Value := do
  let (o, items) ← target.asList
  let i ← Host.ofExcept (checkIndex index items.length)
  modify (·.setState o (.list (items.set i v)))
  pure (items[i]?.getD .null)

def listAdd (target v : Value) : Host Unit := do
  let (o, items) ← target.asList
  modify (·.setState o (.list (items ++ [v])))

def mapGet (target key : Value) : Host Value := do
  let (_, entries) ← target.asMap
  pure ((Assoc.get? key entries).getD .null)

/-- Enters a value and answers the one that was there, or null. -/
def mapPut (target key v : Value) : Host Value := do
  let (o, entries) ← target.asMap
  modify (·.setState o (.map (Assoc.put key v entries)))
  pure ((Assoc.get? key entries).getD .null)

/-- Removes a key and answers the value that was there, or null. -/
def mapRemove (target key : Value) : Host Value := do
  let (o, entries) ← target.asMap
  modify (·.setState o (.map (Assoc.erase key entries)))
  pure ((Assoc.get? key entries).getD .null)

end Containers

end MemberAccess
