import MemberAccess.Containers
import MemberAccess.Core.Comparison
import MemberAccess.Core.Texts
import MemberAccess.Registry.Basic

/-!
# The core classes

The classes that every registry starts with, at the positions that `ClassId` names: the root, the
boxes, texts and their interfaces, and the containers with theirs.

* `Registry.initial`: the registry of the core classes.
-/

namespace MemberAccess

/-- A code for a value's place in a hash table: the kind and the content, mixed word by word. -/
def Value.hashCode (v : Value) : Int32 :=
  let mix (words : List Nat) : Int32 :=
    .ofNat (words.foldl (fun h w => (h ^^^ (w % (1 <<< 32))) * 16777619 % (1 <<< 32)) 2166136261)
  let long (n : Nat) : List Nat := [n, n >>> 32]
  mix (match v with
    | .null => [0]
    | .bool b => [1, b.toNat]
    | .char c => [2, c.toNat]
    | .byte n => [3, n.toBitVec.toNat]
    | .short n => [4, n.toBitVec.toNat]
    | .int n => [5, n.toBitVec.toNat]
    | .long n => 6 :: long n.toBitVec.toNat
    | .float x => [7, x.bits.toNat]
    | .double x => 8 :: long x.bits.toNat
    | .string s => 9 :: s.toList.map Char.toNat
    | .array a => [10, a.address]
    | .object o => [11, o.address])

namespace Core

/-- The argument at a position; every body below is called with at least its formal arguments. -/
def arg (args : List Value) (i : Nat) : Host Value := Host.ofExcept (argument args i)

def objectClass : ClassDecl :=
  (ClassDecl.ofName "kiln.lang.Object")
    |>.construct [] (fun _ => Host.create .object .bare)
    |>.method "toString" [] .string (fun target _ => return .string (← target.display))
    |>.method "hashCode" [] .int (fun target _ => pure (.int target.hashCode))
    |>.method "equals" [.object] .boolean (fun target args => return .bool (target = (← arg args 0)))

def numberClass : ClassDecl :=
  (ClassDecl.ofName "kiln.lang.Number")
    |>.method "intValue" [] .int Numbers.intValue
    |>.method "longValue" [] .long Numbers.longValue
    |>.method "doubleValue" [] .double Numbers.doubleValue

def booleanClass : ClassDecl :=
  (ClassDecl.ofName "kiln.lang.Boolean").implementing .comparable
    |>.method "booleanValue" [] .boolean booleanValue
    |>.method "compareTo" [.ofClass .boolean] .int compareTo

def characterClass : ClassDecl :=
  (ClassDecl.ofName "kiln.lang.Character").implementing .comparable
    |>.method "charValue" [] .char charValue

/-- The class that boxes a numeric primitive. -/
def numericBox (name : String) (own : Primitive) : ClassDecl :=
  ((ClassDecl.ofName name).extending .number).implementing .comparable
    |>.method "compareTo" [.ofClass own.boxed] .int Numbers.compareTo

def charSequence : ClassDecl :=
  (ClassDecl.interface "kiln.lang.CharSequence")
    |>.method "length" [] .int Texts.length
    |>.method "charAt" [.int] .char Texts.charAtBody

def comparable : ClassDecl :=
  (ClassDecl.interface "kiln.lang.Comparable").method "compareTo" [.object] .int compareTo

def stringClass : ClassDecl :=
  ((ClassDecl.ofName "kiln.lang.String").implementing .charSequence).implementing .comparable
    |>.method "length" [] .int Texts.length
    |>.method "charAt" [.int] .char Texts.charAtBody
    |>.method "isEmpty" [] .boolean Texts.isEmpty
    |>.method "toUpperCase" [] .string Texts.toUpperCase
    |>.method "substring" [.int] .string Texts.substringFrom
    |>.method "substring" [.int, .int] .string Texts.substringBetween
    |>.method "concat" [.string] .string Texts.concat
    |>.method "contains" [.ofClass .charSequence] .boolean Texts.contains
    |>.method "startsWith" [.string] .boolean Texts.startsWith
    |>.method "compareTo" [.string] .int compareTo
    |>.staticMethod "valueOf" [.object] .string
      (fun _ args => return .string (← (← arg args 0).display))

def collectionMethods (d : ClassDecl) : ClassDecl :=
  d |>.method "size" [] .int (fun target _ => return .int (.ofNat (← target.asList).2.length))
    |>.method "isEmpty" [] .boolean (fun target _ => return .bool (← target.asList).2.isEmpty)
    |>.method "contains" [.object] .boolean (fun target args => do
      let (_, items) ← target.asList
      pure (.bool (items.contains (← arg args 0))))

def listMethods (d : ClassDecl) : ClassDecl :=
  (collectionMethods d)
    |>.method "get" [.int] .object (fun target args => do
      let _ ← target.asList
      Containers.listGet target (← Host.ofExcept (indexArgument args 0)))
    |>.method "set" [.int, .object] .object (fun target args => do
      let _ ← target.asList
      Containers.listSet target (← Host.ofExcept (indexArgument args 0)) (← arg args 1))
    |>.method "add" [.object] .boolean (fun target args => do
      Containers.listAdd target (← arg args 0)
      pure (.bool true))

def mapMethods (d : ClassDecl) : ClassDecl :=
  d |>.method "get" [.object] .object (fun target args => do Containers.mapGet target (← arg args 0))
    |>.method "put" [.object, .object] .object (fun target args => do
      Containers.mapPut target (← arg args 0) (← arg args 1))
    |>.method "containsKey" [.object] .boolean (fun target args => do
      let (_, entries) ← target.asMap
      pure (.bool (Assoc.get? (← arg args 0) entries).isSome))
    |>.method "remove" [.object] .object (fun target args => do
      Containers.mapRemove target (← arg args 0))
    |>.method "size" [] .int (fun target _ => return .int (.ofNat (← target.asMap).2.length))
    |>.method "isEmpty" [] .boolean (fun target _ => return .bool (← target.asMap).2.isEmpty)

/-- The core classes in the order of their positions. -/
def classes : List ClassDecl :=
  [ objectClass, numberClass, booleanClass, characterClass,
    numericBox "kiln.lang.Byte" .byte, numericBox "kiln.lang.Short" .short,
    (numericBox "kiln.lang.Integer" .int)
      |>.constant "MAX_VALUE" .int (.int Int32.maxValue)
      |>.constant "MIN_VALUE" .int (.int Int32.minValue),
    (numericBox "kiln.lang.Long" .long).constant "MAX_VALUE" .long (.long Int64.maxValue),
    numericBox "kiln.lang.Float" .float, numericBox "kiln.lang.Double" .double,
    charSequence, comparable, stringClass, .interface "kiln.lang.Iterable",
    collectionMethods ((ClassDecl.interface "kiln.util.Collection").implementing .iterable),
    listMethods ((ClassDecl.interface "kiln.util.List").implementing .collection),
    mapMethods (.interface "kiln.util.Map"),
    listMethods (((ClassDecl.ofName "kiln.util.ArrayList").implementing .list).construct []
      fun _ => Containers.newList []),
    mapMethods (((ClassDecl.ofName "kiln.util.HashMap").implementing .map).construct []
      fun _ => Containers.newMap []) ]

end Core

/-- The registry that holds the core classes alone. Their supertypes may come after them. -/
def Registry.initial : Registry where
  classes := Core.classes.mapIdx fun i d => .ofDecl ⟨i⟩ d

end MemberAccess
