import MemberAccess.Registry.Hierarchy

/-!
# Signatures and the choice of an overload

A call is described by a `Signature`: a name and parameter types with primitives collapsed onto their
boxes. Each candidate of the right length has a cost, the sum of the costs of its parameters in 32 bits,
and the cheapest one is chosen; several at the same least cost are a tie.

* `conversionCost`: what passing an argument of one type to a parameter of another costs.
* `callCost`: what a call costs.
* `choose`: the choice among candidates.
-/

namespace MemberAccess

/-- A name and normalized parameter types. -/
structure Signature where
  name : String
  params : List Ty
deriving DecidableEq

namespace Signature

/-- The signature of a declaration. -/
def ofTypes (name : String) (params : List Ty) : Signature := ⟨name, params.map (·.normalized)⟩

def ofMethod (m : Method) : Signature := ofTypes m.name m.params

/-- The signature of a call, from the types of its arguments. -/
def ofArgs (name : String) (args : List Value) : Signature := ⟨name, args.map (·.type)⟩

end Signature

/-- A name with parameter types, as messages write it. -/
def Registry.describe (r : Registry) (name : String) (params : List Ty) : String :=
  name ++ "(" ++ ", ".intercalate (params.map r.typeName) ++ ")"

def Signature.describe (s : Signature) (r : Registry) : String := r.describe s.name s.params

/-- The written form that needs no registry: classes by their identities. -/
def Signature.text (s : Signature) : String :=
  let write : Ty → String
    | .primitive p => p.name
    | .ofClass c => c.text
    | .null => "null"
  s.name ++ "(" ++ ", ".intercalate (s.params.map write) ++ ")"

/-- What a reference conversion costs beyond its distance: more than any widening. -/
def referenceCost : Nat := 8

/-- What passing an argument of type `actual` to a parameter of type `formal` costs, none when it
cannot be passed: nothing for the same type, the widening steps between primitives, and for
references the distance on top of a base. `null` goes to any parameter that is not primitive. -/
def conversionCost (r : Registry) (formal actual : Ty) : Option Nat :=
  if actual = .null then if formal.isPrimitive then none else some referenceCost
  else if formal.normalized = actual.normalized then some 0
  else match formal.primitive?, actual.primitive? with
    | some f, some a => a.widening f
    | _, _ =>
      if formal.isPrimitive then none
      else match actual.cls?, formal.cls? with
        | some source, some target => (r.distance source target).map (referenceCost + ·)
        | _, _ => none

/-- What passing the arguments of a call costs, one by one; none when one of them cannot be passed or
their number differs. -/
def conversionCosts (r : Registry) : List Ty → List Ty → Option (List Nat)
  | [], [] => some []
  | formal :: formals, actual :: actuals => do
    let first ← conversionCost r formal actual
    let rest ← conversionCosts r formals actuals
    pure (first :: rest)
  | _, _ => none

/-- The sum of costs that have 32 bits each, in 32 bits. What is carried out of them is lost. -/
def sum32 : List Nat → Nat
  | [] => 0
  | first :: rest => rest.foldl (fun sum cost => (sum + cost) % UInt32.size) first

/-- The cost of a call: the sum over its parameters. -/
def callCost (r : Registry) (formals actuals : List Ty) : Option Nat :=
  (conversionCosts r formals actuals).map sum32

/-- The outcome of a choice among overloads. -/
inductive Choice (α : Type) where
  | none
  | one (a : α)
  | tie (candidates : List α)

/-- What the cheapest candidates come to: one of them is chosen, several are a tie. -/
def Choice.ofTied {α : Type} : List α → Choice α
  | [] => .none
  | [only] => .one only
  | tied => .tie tied

/-- A choice under way: the least cost so far, and the candidates that have it, in order. -/
structure Ranking (α : Type) where
  least : Option Nat := none
  tied : List α := []

/-- Takes one more candidate in. One that cannot be called or costs more is passed over, one at the same
cost ties, and one that costs less takes the place of all before it. -/
def Ranking.rank {α : Type} (w : Ranking α) (a : α) : Option Nat → Ranking α
  | none => w
  | some cost => match w.least with
    | none => ⟨some cost, [a]⟩
    | some least =>
      if least < cost then w
      else if cost = least then { w with tied := w.tied ++ [a] }
      else ⟨some cost, [a]⟩

/-- Chooses the candidate with the least cost, in one pass. -/
def choose {α : Type} (r : Registry) (params : α → List Ty) (actuals : List Ty) (candidates : List α) :
    Choice α :=
  .ofTied (candidates.foldl (fun w c => w.rank c (callCost r (params c) actuals)) ({} : Ranking α)).tied

/-- A call can be made when its arguments can be passed, one by one. -/
theorem isSome_callCost_cons (r : Registry) (formal actual : Ty) (formals actuals : List Ty) :
    (callCost r (formal :: formals) (actual :: actuals)).isSome =
      ((conversionCost r formal actual).isSome && (callCost r formals actuals).isSome) := by
  unfold callCost
  rw [Option.isSome_map, Option.isSome_map, conversionCosts]
  cases conversionCost r formal actual <;> cases conversionCosts r formals actuals <;> rfl

theorem conversionCost_self (r : Registry) (t : Ty) (h : t ≠ .null) : conversionCost r t t = some 0 := by
  simp [conversionCost, h]

end MemberAccess
