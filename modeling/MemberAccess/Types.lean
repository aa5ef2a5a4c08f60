/-!
# Types of members and values

Declarations name primitive types, classes and the type of `null`; a value at run time only ever has
a class or is `null`, which is why `Ty.normalized` collapses a primitive onto the class that boxes it.

* `ClassId`: a class by its position in the registry; the core classes have fixed positions.
* `Primitive.widening`: how many widening steps lead from one primitive to another.
* `Ty`: a declared type or the type of an argument.
-/

namespace MemberAccess

/-- A class, by its position in the registry that handed it out. -/
structure ClassId where
  index : Nat
deriving DecidableEq, Inhabited

namespace ClassId

def object : ClassId := ⟨0⟩
def number : ClassId := ⟨1⟩
def boolean : ClassId := ⟨2⟩
def character : ClassId := ⟨3⟩
def byte : ClassId := ⟨4⟩
def short : ClassId := ⟨5⟩
def integer : ClassId := ⟨6⟩
def long : ClassId := ⟨7⟩
def float : ClassId := ⟨8⟩
def double : ClassId := ⟨9⟩
def charSequence : ClassId := ⟨10⟩
def comparable : ClassId := ⟨11⟩
def string : ClassId := ⟨12⟩
def iterable : ClassId := ⟨13⟩
def collection : ClassId := ⟨14⟩
def list : ClassId := ⟨15⟩
def map : ClassId := ⟨16⟩
def arrayList : ClassId := ⟨17⟩
def hashMap : ClassId := ⟨18⟩

/-- How many classes every registry starts with. -/
def coreCount : Nat := 19

def isCore (c : ClassId) : Bool := c.index < coreCount

/-- The written form of a class that has no name at hand. -/
def text (c : ClassId) : String := "#" ++ Nat.repr c.index

end ClassId

/-- The unboxed types. -/
inductive Primitive where
  | boolean
  | char
  | byte
  | short
  | int
  | long
  | float
  | double
deriving DecidableEq, Inhabited

namespace Primitive

/-- All of them, from the narrowest. -/
def all : List Primitive := [boolean, char, byte, short, int, long, float, double]

/-- The class that boxes a primitive. -/
def boxed : Primitive → ClassId
  | boolean => .boolean
  | char => .character
  | byte => .byte
  | short => .short
  | int => .integer
  | long => .long
  | float => .float
  | double => .double

/-- The primitive that a class boxes. -/
def ofBoxed? (c : ClassId) : Option Primitive := all.find? (·.boxed = c)

def name : Primitive → String
  | boolean => "boolean"
  | char => "char"
  | byte => "byte"
  | short => "short"
  | int => "int"
  | long => "long"
  | float => "float"
  | double => "double"

def ofName? (s : String) : Option Primitive := all.find? (·.name = s)

/-- Whether it is a number; a character is none. -/
def isNumeric : Primitive → Bool
  | boolean | char => false
  | _ => true

/-- The rung on the ladder byte, short, int, long, float, double. A character stands beside a short. -/
def rank : Primitive → Nat
  | boolean | byte => 0
  | short | char => 1
  | int => 2
  | long => 3
  | float => 4
  | double => 5

/-- Whether a different primitive can be widened to `target`: upward on the ladder, never from or to
a boolean, and never to a character or a byte. -/
def widensTo (source target : Primitive) : Bool :=
  match source, target with
  | boolean, _ | _, boolean | _, char | _, byte | char, short => false
  | _, _ => source.rank < target.rank

/-- The widening steps from one primitive to another, none when there is no such conversion. -/
def widening (source target : Primitive) : Option Nat :=
  if source = target then some 0
  else if source.widensTo target then some (target.rank - source.rank)
  else none

theorem ofBoxed?_boxed (p : Primitive) : ofBoxed? p.boxed = some p := by cases p <;> rfl

theorem ofName?_name (p : Primitive) : ofName? p.name = some p := by cases p <;> decide

theorem widening_self (p : Primitive) : p.widening p = some 0 := by simp [widening]

end Primitive

/-- A declared type, or the type of an argument. -/
inductive Ty where
  | primitive (p : Primitive)
  | ofClass (c : ClassId)
  | null
deriving DecidableEq, Inhabited

namespace Ty

def object : Ty := .ofClass .object
def string : Ty := .ofClass .string
def boolean : Ty := .primitive .boolean
def char : Ty := .primitive .char
def int : Ty := .primitive .int
def long : Ty := .primitive .long
def double : Ty := .primitive .double

/-- A primitive collapsed onto the class that boxes it. -/
def normalized : Ty → Ty
  | primitive p => ofClass p.boxed
  | t => t

def isPrimitive : Ty → Bool
  | primitive _ => true
  | _ => false

/-- The class of a type, a primitive's being the one that boxes it. -/
def cls? : Ty → Option ClassId
  | primitive p => some p.boxed
  | ofClass c => some c
  | null => none

/-- The primitive of a primitive or boxed type. -/
def primitive? : Ty → Option Primitive
  | primitive p => some p
  | ofClass c => Primitive.ofBoxed? c
  | null => none

def isBoolean (t : Ty) : Bool := t.primitive? = some .boolean

@[simp] theorem normalized_normalized (t : Ty) : t.normalized.normalized = t.normalized := by
  cases t <;> rfl

theorem cls?_normalized (t : Ty) : t.normalized.cls? = t.cls? := by cases t <;> rfl

end Ty

/-- The flags of a member. -/
structure Modifiers where
  isPublic : Bool
  isStatic : Bool
  isFinal : Bool
  isEnumConstant : Bool
deriving DecidableEq

namespace Modifiers

/-- A public member of instances. -/
def shown : Modifiers := ⟨true, false, false, false⟩

/-- A member of instances that is not public. -/
def concealed : Modifiers := ⟨false, false, false, false⟩

def asStatic (m : Modifiers) : Modifiers := { m with isStatic := true }

def asFinal (m : Modifiers) : Modifiers := { m with isFinal := true }

/-- An enum constant is static and final. -/
def asEnumConstant (m : Modifiers) : Modifiers := { m.asStatic.asFinal with isEnumConstant := true }

end Modifiers

end MemberAccess
