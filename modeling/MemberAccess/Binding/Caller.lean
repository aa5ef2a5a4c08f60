import MemberAccess.Access
import MemberAccess.Binding.Search

/-!
# Callers and creators

A caller is an overload found for a call on the instances of one class, a creator a constructor found
for the making of an instance. Both are bound to the signature of the call.
-/

namespace MemberAccess

structure Caller where
  cls : ClassId
  method : Method
  signature : Signature

namespace Caller

def isAlive (b : Caller) (r : Registry) : Bool := r.isAlive b.method.declaring

def same (a b : Caller) : Bool :=
  a.cls = b.cls && a.method.id = b.method.id && a.signature = b.signature

def access (b : Caller) (target : Value) (args : List Value) : Access := .call b.method target args

/-- The access for a target of the bound class and a call of the bound signature. -/
def replay? (b : Caller) (target : Value) (name : String) (args : List Value) : Option Access :=
  if target.isNull = false ∧ target.cls = b.cls ∧ Signature.ofArgs name args = b.signature then
    some (b.access target args)
  else none

def invoke (b : Caller) (target : Value) (args : List Value) : Run Value := (b.access target args).run

def tryInvoke (b : Caller) (target : Value) (name : String) (args : List Value) : Run Outcome :=
  attemptIf (b.replay? target name args)

/-- Finds the overload of a name for some arguments. -/
def search (r : Registry) (c : ClassId) (name : String) (args : List Value) : Search (Option Caller) := do
  let s := Signature.ofArgs name args
  pure ((← Search.method r c s).map (⟨c, ·, s⟩))

end Caller

structure Creator where
  constructor : Constructor
  signature : Signature

namespace Creator

def cls (b : Creator) : ClassId := b.constructor.declaring

def isAlive (b : Creator) (r : Registry) : Bool := r.isAlive b.cls

def same (a b : Creator) : Bool := a.constructor.id = b.constructor.id && a.signature = b.signature

def access (b : Creator) (args : List Value) : Access := .create b.constructor b.signature.name args

/-- The access for a call of the bound signature. -/
def replay? (b : Creator) (name : String) (args : List Value) : Option Access :=
  if Signature.ofArgs name args = b.signature then some (b.access args) else none

def invoke (b : Creator) (args : List Value) : Run Value := (b.access args).run

def tryInvoke (b : Creator) (name : String) (args : List Value) : Run Outcome :=
  attemptIf (b.replay? name args)

/-- Finds the constructor of a class, by its qualified name, for some arguments. -/
def search (r : Registry) (name : String) (args : List Value) : Search (Option Creator) := do
  pure ((← Search.constructor r name args).map (⟨·, .ofArgs name args⟩))

end Creator

end MemberAccess
