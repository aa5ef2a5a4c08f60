import MemberAccess.Engine
import MemberAccess.Proofs.Introspection.Soundness

/-!
# The members behind bindings and accesses

A binding goes through a member of a class, or through the elements of an array. Using it, for the
first time or again, is an access to that very member.

* `Binding`: a binding of any of the four sorts, with its member.
* `Access.member?`: the member that an access runs.
* `access_member?`, `replay?_member?`: the access of a binding runs the member of the binding.
* `Discovery`: what an engine can be asked to find a binding for.
-/

namespace MemberAccess

inductive Member where
  | method (m : Method)
  | field (f : Field)
  | constructor (c : Constructor)

def Member.declaring : Member → ClassId
  | method m => m.declaring
  | field f => f.declaring
  | constructor c => c.declaring

/-- A member that is public, in a public class, and allowed by the policy for its class. -/
def Policy.Exposes (P : Policy) (r : Registry) : Member → Prop
  | .method m => P.ExposesMethod r m
  | .field f => P.ExposesField r f
  | .constructor c => P.ExposesConstructor r c

/-- The member that an access runs; array elements have none. -/
def Access.member? : Access → Option Member
  | call m _ _ | store m _ _ _ => some (.method m)
  | readField f _ | writeField f _ _ => some (.field f)
  | readElement .. | writeElement .. => none
  | create c _ _ => some (.constructor c)

def Access.declaring? (a : Access) : Option ClassId := a.member?.map (·.declaring)

def Indexed.member? : Indexed → Option Member
  | array => none
  | list m => some (.method m)

namespace ReadRoute

/-- The member that a reader goes through. -/
def member? : ReadRoute → Option Member
  | field f => some (.field f)
  | list source _ => source.member?
  | map m _ | getter m _ | flag m _ | duck m _ _ => some (.method m)

theorem declaring?_eq (route : ReadRoute) : route.declaring? = route.member?.map (·.declaring) := by
  cases route with
  | list source i => cases source <;> rfl
  | _ => rfl

theorem access_member? (route : ReadRoute) (target : Value) :
    (route.access target).member? = route.member? := by
  cases route with
  | list source i => cases source <;> rfl
  | _ => rfl

theorem member?_of_family {route : ReadRoute} (h : route.family = .field) :
    ∃ f, route.member? = some (.field f) := by
  cases route with
  | field f => exact ⟨f, rfl⟩
  | _ => cases h

/-- **A reader that is used again runs its own member.** -/
theorem replay?_member? {route : ReadRoute} {target key : Value} {a : Access}
    (h : route.replay? target key = some a) : a.member? = route.member? := by
  unfold replay? at h
  split at h
  case h_3 source i =>
    obtain ⟨j, -, rfl⟩ := Option.map_eq_some_iff.1 h
    cases source <;> rfl
  all_goals
    split at h
    · cases h
      rfl
    · cases h

end ReadRoute

namespace WriteRoute

/-- The member that a writer goes through. -/
def member? : WriteRoute → Option Member
  | field f => some (.field f)
  | list source _ => source.member?
  | map m _ | setter m _ _ | duck m _ _ => some (.method m)

theorem declaring?_eq (route : WriteRoute) : route.declaring? = route.member?.map (·.declaring) := by
  cases route with
  | list source i => cases source <;> rfl
  | _ => rfl

theorem access_member? (route : WriteRoute) (target v : Value) :
    (route.access target v).member? = route.member? := by
  cases route with
  | list source i => cases source <;> rfl
  | _ => rfl

theorem member?_of_family {route : WriteRoute} (h : route.family = .field) :
    ∃ f, route.member? = some (.field f) := by
  cases route with
  | field f => exact ⟨f, rfl⟩
  | _ => cases h

/-- **A writer that is used again runs its own member.** -/
theorem replay?_member? {route : WriteRoute} {target key v : Value} {a : Access}
    (h : route.replay? target key v = some a) : a.member? = route.member? := by
  unfold replay? at h
  split at h
  case h_3 source i =>
    obtain ⟨j, -, rfl⟩ := Option.map_eq_some_iff.1 h
    cases source <;> rfl
  all_goals
    split at h
    · cases h
      rfl
    · cases h

end WriteRoute

/-- Array classes are registered. -/
theorem Registry.exists_array {r : Registry} {c : ClassId} (h : r.isArray c = true) :
    ∃ d, r.class? c = some d ∧ d.isArray = true := by
  unfold isArray at h
  cases hd : r.class? c with
  | none =>
    rw [hd] at h
    cases h
  | some d =>
    rw [hd] at h
    exact ⟨d, rfl, h⟩

/-- The class that declares a member, if there is one, is alive. -/
def Registry.Living (r : Registry) (member? : Option Member) : Prop :=
  ∀ m ∈ member?, r.isAlive m.declaring = true

theorem Reader.isAlive_iff {b : Reader} {r : Registry} : b.isAlive r = true ↔ r.Living b.route.member? := by
  unfold isAlive Registry.Living
  rw [ReadRoute.declaring?_eq]
  cases b.route.member? <;> simp

theorem Writer.isAlive_iff {b : Writer} {r : Registry} : b.isAlive r = true ↔ r.Living b.route.member? := by
  unfold isAlive Registry.Living
  rw [WriteRoute.declaring?_eq]
  cases b.route.member? <;> simp

/-- A reader that applies: the class is its own, null is a target for fields only, and the property matches. -/
theorem Reader.of_replay? {b : Reader} {target key : Value} {a : Access} (h : b.replay? target key = some a) :
    target.cls = b.cls ∧ (target.isNull = true → b.family = .field) ∧ b.route.replay? target key = some a := by
  unfold replay? at h
  split at h
  · rename_i hmatch
    exact ⟨hmatch.1, hmatch.2, h⟩
  · cases h

/-- A writer that applies: the class is its own, null is a target for fields only, and the property and the value
match. -/
theorem Writer.of_replay? {b : Writer} {target key v : Value} {a : Access} (h : b.replay? target key v = some a) :
    target.cls = b.cls ∧ (target.isNull = true → b.family = .field) ∧ b.route.replay? target key v = some a := by
  unfold replay? at h
  split at h
  · rename_i hmatch
    exact ⟨hmatch.1, hmatch.2, h⟩
  · cases h

/-- A binding of any sort. -/
inductive Binding where
  | reader (b : Reader)
  | writer (b : Writer)
  | caller (b : Caller)
  | creator (b : Creator)

namespace Binding

/-- The class whose instances the binding serves; a creator serves the class it makes instances of. -/
def cls : Binding → ClassId
  | reader b => b.cls
  | writer b => b.cls
  | caller b => b.cls
  | creator b => b.cls

/-- The member that the binding goes through. -/
def member? : Binding → Option Member
  | reader b => b.route.member?
  | writer b => b.route.member?
  | caller b => some (.method b.method)
  | creator b => some (.constructor b.constructor)

def declaring? (b : Binding) : Option ClassId := b.member?.map (·.declaring)

end Binding

/-- The order in which a property is looked for: that of a style of access, or one that is given. -/
inductive SearchOrder where
  | style (s : AccessStyle)
  | resolvers (order : List Resolver)

/-- What an engine can be asked to find a binding for. -/
inductive Discovery where
  | read (order : SearchOrder) (target key : Value)
  | write (order : SearchOrder) (target key v : Value)
  | call (target : Value) (name : String) (args : List Value)
  | callOn (c : ClassId) (name : String) (args : List Value)
  | create (name : String) (args : List Value)

def SearchOrder.of (e : Engine) (r : Registry) (target : Value) : SearchOrder → List Resolver
  | style s => e.resolvers r target s
  | resolvers order => order

namespace Discovery

/-- The class whose members are looked for. -/
def on? (r : Registry) : Discovery → Option ClassId
  | read _ target _ | write _ target _ _ | call target _ _ => some target.cls
  | callOn c _ _ => some c
  | create name _ => r.idOf? name

def search (e : Engine) (r : Registry) : Discovery → Search (Option Binding)
  | read order target key => return (← Resolver.firstReader (order.of e r target) r target key).map .reader
  | write order target key v =>
    return (← Resolver.firstWriter (order.of e r target) r target key v).map .writer
  | call target name args => return (← Engine.findCaller r target name args).map .caller
  | callOn c name args => return (← Engine.findCallerOn r c name args).map .caller
  | create name args => return (← Engine.findCreator r name args).map .creator

end Discovery

end MemberAccess
