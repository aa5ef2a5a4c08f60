import MemberAccess.Introspection.Introspector
import MemberAccess.Text.LetterCase

/-!
# Searching for members

A search asks an introspector for members of a class and fails only on an ambiguous call. The searches
here are shared by the families of bindings.

* `Search.method`, `Search.field`: a member through the memory of the introspector.
* `Search.accessor`: a method named after a property.
-/

namespace MemberAccess

/-- A search through the memory of an introspector. -/
abbrev Search := ExceptT AmbiguousCall (StateM Introspector)

/-- A property as a name: texts as they are, ints in decimal. -/
def Value.propertyName? : Value → Option String
  | .string s => some s
  | .int n => some n.toInt.repr
  | _ => none

namespace Search

def method (r : Registry) (c : ClassId) (s : Signature) : Search (Option Method) :=
  fun known => known.findMethod r c s

def field (r : Registry) (c : ClassId) (name : String) : Search (Option Field) := fun known =>
  let (f, known) := known.findField r c name
  (.ok f, known)

def constructor (r : Registry) (name : String) (args : List Value) : Search (Option Constructor) :=
  fun known => known.findConstructor r name args

/-- The method that is named by a lead and a property, the property's first letter in upper case or
else in lower case. -/
def accessor (r : Registry) (c : ClassId) (lead property : String) (args : List Value) :
    Search (Option Method) :=
  match property.toList with
  | [] => pure none
  | first :: rest => do
    let named (form : List Char) := Signature.ofArgs (lead ++ String.ofList (form ++ rest)) args
    match ← method r c (named (Text.upper first)) with
    | some m => pure (some m)
    | none => method r c (named (Text.lower first))

end Search

/-- Whether a class is an array class. -/
def Registry.isArray (r : Registry) (c : ClassId) : Bool := ((r.class? c).map (·.isArray)).getD false

/-- What stands behind an indexed access: the elements of an array, or a method of a list. -/
inductive Indexed where
  | array
  | list (m : Method)

namespace Indexed

/-- The elements of an array class, or the method of a list class for a signature. -/
def search (r : Registry) (c : ClassId) (s : Signature) : Search (Option Indexed) := do
  if r.isArray c then pure (some .array)
  else if r.isAssignable c .list then
    pure ((← Search.method r c s).map .list)
  else pure none

def declaring? : Indexed → Option ClassId
  | array => none
  | list m => some m.declaring

/-- The same array access or the same method. -/
def same : Indexed → Indexed → Bool
  | array, array => true
  | list m, list n => m.id = n.id
  | _, _ => false

end Indexed

end MemberAccess
