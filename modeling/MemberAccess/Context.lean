import MemberAccess.Engine

/-!
# Contexts

A context takes the properties of one object for the variables of a script. A variable that does not
exist reads as null, and writing it does nothing. A failing accessor is reported by a strict context
and passed over by a lenient one; an ambiguous call is always reported.
-/

namespace MemberAccess

structure ObjectContext where
  object : Value
  isStrict : Bool

namespace ObjectContext

/-- Whether a failure is passed over. -/
def forgives (c : ObjectContext) : AccessError → Bool
  | .failed .. => !c.isStrict
  | .ambiguous _ | .endless => false

/-- The value of what an access to a variable answered, null when it is passed over or there is no such
variable. -/
def settle {β : Type} (c : ObjectContext) (access : Evaluation (Option (β × Value))) : Evaluation Value :=
  fun w => match access w with
    | (.ok found, w) => (.ok ((found.map (·.2)).getD .null), w)
    | (.error e, w) => (if c.forgives e then .ok .null else .error e, w)

def get (c : ObjectContext) (r : Registry) (name : String) : Evaluation Value := do
  c.settle ((← MonadState.get).engine.reading r .dot c.object (.string name)).fresh

def set (c : ObjectContext) (r : Registry) (name : String) (v : Value) : Evaluation Unit := do
  let _ ← c.settle ((← MonadState.get).engine.writing r .dot c.object (.string name) v).fresh

/-- Whether a variable can be read. -/
def has (c : ObjectContext) (r : Registry) (name : String) : Evaluation Bool := do
  let e := (← MonadState.get).engine
  return (← Evaluation.search (e.findReader r .dot c.object (.string name))).isSome

end ObjectContext

end MemberAccess
