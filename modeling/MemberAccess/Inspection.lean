import MemberAccess.Introspection.Introspector
import MemberAccess.Text.Quoted

/-!
# Inspection texts

The texts that show what a thing is made of, for logs and for people who look into an engine: a name
with the parts that matter, classes by their positions, texts quoted.
-/

namespace MemberAccess

namespace Inspection

/-- A name with named parts. -/
def record (name : String) (parts : List (String × String)) : String :=
  name ++ " \x7b " ++ ", ".intercalate (parts.map fun p => p.1 ++ ": " ++ p.2) ++ " \x7d"

/-- A name with one part. -/
def wrapped (name part : String) : String := name ++ "(" ++ part ++ ")"

def list (items : List String) : String := "[" ++ ", ".intercalate items ++ "]"

end Inspection

open Inspection

def ClassId.inspect (c : ClassId) : String := wrapped "ClassId" (Nat.repr c.index)

def Primitive.inspect : Primitive → String
  | boolean => "Boolean"
  | char => "Char"
  | byte => "Byte"
  | short => "Short"
  | int => "Int"
  | long => "Long"
  | float => "Float"
  | double => "Double"

def Ty.inspect : Ty → String
  | primitive p => wrapped "Primitive" p.inspect
  | ofClass c => wrapped "Class" c.inspect
  | null => "Null"

/-- The parts of a value; of an array its class and its length. -/
def Value.inspect (h : Heap) : Value → String
  | null => "Null"
  | bool b => wrapped "Bool" (if b then "true" else "false")
  | char c => wrapped "Char" (Text.quotedChar c)
  | byte n => wrapped "Byte" n.toInt.repr
  | short n => wrapped "Short" n.toInt.repr
  | int n => wrapped "Int" n.toInt.repr
  | long n => wrapped "Long" n.toInt.repr
  | float x => wrapped "Float" x.text
  | double x => wrapped "Double" x.text
  | string s => wrapped "Str" (Text.quoted s)
  | array a => record "Array" [("class", a.cls.inspect), ("len", Nat.repr (h.elements a).length)]
  | object o => wrapped "Object" o.cls.text

def Method.inspect (m : Method) : String :=
  record "MethodDef"
    [("name", Text.quoted m.name), ("params", list (m.params.map (·.inspect))),
      ("declaring_class", m.declaring.inspect)]

def Field.inspect (f : Field) : String :=
  record "FieldDef"
    [("name", Text.quoted f.name), ("type", f.type.inspect), ("declaring_class", f.declaring.inspect)]

def Constructor.inspect (c : Constructor) : String :=
  record "ConstructorDef"
    [("params", list (c.params.map (·.inspect))), ("declaring_class", c.declaring.inspect)]

def Registry.inspect (r : Registry) : String :=
  record "ClassRegistry" [("classes", Nat.repr r.size)]

/-- The layers of a policy, the outermost first. -/
def Policy.inspect : Policy → String
  | unrestricted => "Unrestricted"
  | restricted => "Restricted"
  | granting base names =>
    wrapped "Classes" (base.inspect ++ " + " ++ Nat.repr names.length ++ " classes")
  | narrowed base rules =>
    wrapped "Narrowed" (base.inspect ++ " - " ++ Nat.repr rules.length ++ " rules")

def Introspector.inspect (s : Introspector) : String :=
  record "Introspector" [("permissions", s.policy.inspect), ("class_maps", Nat.repr s.mapCount)]

end MemberAccess
