import MemberAccess.Class.Member

/-!
# Numbers and order

The methods of numbers, and the order of values: texts, booleans and characters among themselves,
numbers with numbers, where what is not a number counts as equal to everything.
-/

namespace MemberAccess.Core

open Number

/-- The number that a method of numbers is called on. -/
def targetNumber (target : Value) : Except HostFault Binary64 :=
  match target with
  | .null => .error .nullTarget
  | v => match v.toNumber? with
    | some x => .ok x
    | none => .error (v.mismatch "Number")

/-- The argument at a position, cut to an index. -/
def indexArgument (args : List Value) (i : Nat) : Except HostFault Int32 := do
  let v ← argument args i
  match v.toIndex? with
  | some n => pure n
  | none => throw (v.mismatch "int")

/-- An order as minus one, zero or one. -/
def ofOrdering : Ordering → Value
  | .lt => .int (-1)
  | .eq => .int 0
  | .gt => .int 1

/-- Whole numbers are compared exactly, others as floats. -/
def compareNumbers (a b : Value) : Except HostFault Ordering :=
  match a.toInt?, b.toInt? with
  | some m, some n => .ok (compare m n)
  | _, _ => do
    let x ← targetNumber a
    let y ← targetNumber b
    pure ((x.compare? y).getD .eq)

def compareValues (a b : Value) : Except HostFault Ordering :=
  match a, b with
  | .string s, .string t => .ok (compare s t)
  | .bool p, .bool q => .ok (compare p.toNat q.toNat)
  | .char c, .char d => .ok (compare c d)
  | _, _ => compareNumbers a b

namespace Numbers

def intValue : Body := .ofPure fun target _ => do
  let _ ← targetNumber target
  pure (.int (target.toIndex?.getD 0))

def longValue : Body := .ofPure fun target _ => do
  let x ← targetNumber target
  pure (.long (.ofInt (target.toInt?.getD
    (x.truncate Int64.minValue.toInt Int64.maxValue.toInt))))

def doubleValue : Body := .ofPure fun target _ => do
  pure (.double (← targetNumber target))

def compareTo : Body := .ofPure fun target args => do
  pure (ofOrdering (← compareNumbers target (← argument args 0)))

end Numbers

/-- The order of any two values that have one. -/
def compareTo : Body := .ofPure fun target args => do
  pure (ofOrdering (← compareValues target (← argument args 0)))

/-- The value of a boolean; anything else counts as no target. -/
def booleanValue : Body := fun target _ =>
  match target with
  | .bool _ => pure target
  | _ => Host.fail .nullTarget

/-- The value of a character; anything else counts as no target. -/
def charValue : Body := fun target _ =>
  match target with
  | .char _ => pure target
  | _ => Host.fail .nullTarget

end MemberAccess.Core
