import MemberAccess.Number.Binary
import MemberAccess.Types

/-!
# Values

What a script can hold: `null`, boxed primitives, texts, and references to arrays and host objects.
Two values are equal when they are of one kind with one content, floats by their bits; references are
equal when they lead to the same array or object.

* `Value.cls`, `Value.type`: the class of a value, and its type as an argument.
* `Value.toInt?`, `Value.toNumber?`, `Value.toIndex?`: its numeric readings.
* `Value.convert`: the conversions a host member may ask of an argument.
-/

namespace MemberAccess

open Number

/-- A shared array: its place, its class and the type of its elements. -/
structure ArrayRef where
  address : Nat
  cls : ClassId
  component : Ty
deriving DecidableEq, Inhabited

/-- A shared host object: its place and its class. -/
structure ObjectRef where
  address : Nat
  cls : ClassId
deriving DecidableEq, Inhabited

inductive Value where
  | null
  | bool (b : Bool)
  | char (c : Char)
  | byte (n : Int8)
  | short (n : Int16)
  | int (n : Int32)
  | long (n : Int64)
  | float (x : Binary32)
  | double (x : Binary64)
  | string (s : String)
  | array (a : ArrayRef)
  | object (o : ObjectRef)
deriving DecidableEq, Inhabited

/-- Failures of host members and of the built-in containers. -/
inductive HostFault where
  | illegalAccess (what : String)
  | indexOutOfBounds (index : Int) (length : Nat)
  | typeMismatch (expected got : String)
  | missingArgument (position : Nat)
  | nullTarget
  | duplicateClass (name : String)
  | failure (what : String)
deriving DecidableEq

def HostFault.message : HostFault → String
  | illegalAccess what => "Illegal access: " ++ what
  | indexOutOfBounds index length =>
    "Index " ++ Int.repr index ++ " out of bounds for length " ++ Nat.repr length
  | typeMismatch expected got => "Type mismatch: expected " ++ expected ++ ", got " ++ got
  | missingArgument position => "Missing argument at position " ++ Nat.repr position
  | nullTarget => "Null target"
  | duplicateClass name => "Class already registered: " ++ name
  | failure what => what

namespace Value

/-- The class of a value; `null` passes for an instance of the root class. -/
def cls : Value → ClassId
  | null => .object
  | bool _ => .boolean
  | char _ => .character
  | byte _ => .byte
  | short _ => .short
  | int _ => .integer
  | long _ => .long
  | float _ => .float
  | double _ => .double
  | string _ => .string
  | array a => a.cls
  | object o => o.cls

/-- The type of a value as an argument; `null` has a type of its own. -/
def type : Value → Ty
  | null => .null
  | v => .ofClass v.cls

def isNull : Value → Bool
  | null => true
  | _ => false

/-- The word for a value's kind in messages. -/
def kindName : Value → String
  | null => "null"
  | bool _ => "boolean"
  | char _ => "char"
  | byte _ => "byte"
  | short _ => "short"
  | int _ => "int"
  | long _ => "long"
  | float _ => "float"
  | double _ => "double"
  | string _ => "String"
  | array _ => "array"
  | object _ => "object"

/-- The primitive that a value's class boxes. -/
def primitive? (v : Value) : Option Primitive :=
  if v.isNull then none else Primitive.ofBoxed? v.cls

def toBool? : Value → Option Bool
  | bool b => some b
  | _ => none

/-- The whole number of an integral value. -/
def toInt? : Value → Option Int
  | byte n => some n.toInt
  | short n => some n.toInt
  | int n => some n.toInt
  | long n => some n.toInt
  | _ => none

/-- The number of a numeric value, whole numbers to the nearest float. -/
def toNumber? : Value → Option Binary64
  | float x => some x.widen
  | double x => some x
  | v => v.toInt?.map .ofInt

/-- A number cut to an index: a long keeps its low bits, a fraction is dropped and held to the range. -/
def toIndex? : Value → Option Int32
  | byte n => some n.toInt32
  | short n => some n.toInt32
  | int n => some n
  | long n => some n.toInt32
  | float x => some (.ofInt (x.widen.truncate Int32.minValue.toInt Int32.maxValue.toInt))
  | double x => some (.ofInt (x.truncate Int32.minValue.toInt Int32.maxValue.toInt))
  | _ => none

def toString? : Value → Option String
  | string s => some s
  | _ => none

/-- A value is not what was asked for. -/
def mismatch (expected : String) (v : Value) : HostFault := .typeMismatch expected v.kindName

/-- What a host member may ask an argument to be. -/
inductive Conversion where
  | boolean
  | char
  | int
  | long
  | double
  | string
  | any
deriving DecidableEq

/-- The value as what was asked for. A character counts as the whole number of its code point. -/
def convert (v : Value) : Conversion → Except HostFault Value
  | .boolean => match v with
    | bool _ => .ok v
    | _ => .error (v.mismatch "boolean")
  | .char => match v with
    | char _ => .ok v
    | _ => .error (v.mismatch "char")
  | .int => match v with
    | byte n => .ok (int n.toInt32)
    | short n => .ok (int n.toInt32)
    | int n => .ok (int n)
    | char c => .ok (int (.ofNat c.toNat))
    | _ => .error (v.mismatch "int")
  | .long => match v with
    | char c => .ok (long (.ofNat c.toNat))
    | _ => match v.toInt? with
      | some n => .ok (long (.ofInt n))
      | none => .error (v.mismatch "long")
  | .double => match v.toNumber? with
    | some x => .ok (double x)
    | none => .error (v.mismatch "double")
  | .string => match v with
    | string _ => .ok v
    | _ => .error (v.mismatch "String")
  | .any => .ok v

end Value

/-- The argument at a position. -/
def argument (args : List Value) (position : Nat) : Except HostFault Value :=
  match args[position]? with
  | some v => .ok v
  | none => .error (.missingArgument position)

/-- The argument at a position, converted. -/
def convertedArgument (args : List Value) (position : Nat) (c : Value.Conversion) :
    Except HostFault Value :=
  argument args position >>= (·.convert c)

end MemberAccess
