import MemberAccess.Assoc
import MemberAccess.Number.Decimal
import MemberAccess.Value

/-!
# The heap, and what host code may do to it

Arrays and the states of host objects are shared and mutable: a `Heap` holds them, references lead
into it, and host code is an action on it (`Host`), which keeps the writes it made before a fault.

* `ArrayRef.get`, `ArrayRef.set`: elements of an array; the kind of a primitive array is kept.
* `Heap.display`: the text of a value, which is endless for an array that contains itself.
-/

namespace MemberAccess

/-- The state behind a host object: none, a list, a map, or a record of named slots whose kind the
host names. -/
inductive ObjectState where
  | bare
  | list (items : List Value)
  | map (entries : List (Value × Value))
  | record (kind : String) (slots : List (String × Value))

structure Heap where
  arrays : List (List Value) := []
  objects : List ObjectState := []

/-- Why host code stopped without a value: it failed, or its answer has no end. -/
inductive Halt where
  | fault (f : HostFault)
  | endless
deriving DecidableEq

/-- A run of host code. -/
abbrev Host := ExceptT Halt (StateM Heap)

namespace Host

def fail {α : Type} (f : HostFault) : Host α := throw (.fault f)

/-- A step that cannot touch the heap. -/
def ofExcept {α : Type} : Except HostFault α → Host α
  | .ok a => pure a
  | .error f => fail f

end Host

namespace Heap

def empty : Heap := {}

/-- The elements of an array. -/
def elements (h : Heap) (a : ArrayRef) : List Value := (h.arrays[a.address]?).getD []

/-- The state of an object. -/
def state (h : Heap) (o : ObjectRef) : ObjectState := (h.objects[o.address]?).getD .bare

def setElements (h : Heap) (a : ArrayRef) (items : List Value) : Heap :=
  { h with arrays := h.arrays.set a.address items }

def setState (h : Heap) (o : ObjectRef) (s : ObjectState) : Heap :=
  { h with objects := h.objects.set o.address s }

/-- A new array, with a class and a component that belong together. -/
def newArray (h : Heap) (cls : ClassId) (component : Ty) (items : List Value) : ArrayRef × Heap :=
  (⟨h.arrays.length, cls, component⟩, { h with arrays := h.arrays ++ [items] })

def newObject (h : Heap) (cls : ClassId) (s : ObjectState) : ObjectRef × Heap :=
  (⟨h.objects.length, cls⟩, { h with objects := h.objects ++ [s] })

/-- The text of a value when arrays nest no deeper than a bound. -/
def displayWithin (h : Heap) (depth : Nat) : Value → Option String
  | .null => some "null"
  | .bool b => some (if b then "true" else "false")
  | .char c => some (String.singleton c)
  | .byte n => some n.toInt.repr
  | .short n => some n.toInt.repr
  | .int n => some n.toInt.repr
  | .long n => some n.toInt.repr
  | .float x => some x.text
  | .double x => some x.text
  | .string s => some s
  | .array a =>
    match depth with
    | 0 => none
    | d + 1 => ((h.elements a).mapM (h.displayWithin d)).map fun items =>
      "[" ++ ", ".intercalate items ++ "]"
  | .object o => some ("object" ++ o.cls.text)

/-- The text of a value, none when it is endless: arrays that do not contain themselves nest no
deeper than there are arrays. -/
def display (h : Heap) (v : Value) : Option String := h.displayWithin h.arrays.length v

theorem elements_setElements_ne (h : Heap) (a b : ArrayRef) (items : List Value)
    (hab : a.address ≠ b.address) : (h.setElements a items).elements b = h.elements b := by
  simp [elements, setElements, List.getElem?_set_ne hab]

end Heap

/-- The text of a value, read from the heap. -/
def Value.display (v : Value) : Host String := do
  match (← get).display v with
  | some s => pure s
  | none => throw .endless

/-- A position inside a container of some length. -/
def checkIndex (index : Int32) (length : Nat) : Except HostFault Nat :=
  let i := index.toInt
  if 0 ≤ i ∧ i.toNat < length then .ok i.toNat else .error (.indexOutOfBounds i length)

namespace ArrayRef

def length (a : ArrayRef) : Host Nat := return ((← get).elements a).length

/-- The element at an index. -/
def get (a : ArrayRef) (index : Int32) : Host Value := do
  let items := (← MonadState.get).elements a
  let i ← Host.ofExcept (checkIndex index items.length)
  pure (items[i]?.getD .null)

/-- Whether an array of some component takes a value: a primitive one only takes its own kind. -/
def accepts (component : Ty) (v : Value) : Except HostFault Unit :=
  match component with
  | .primitive p => if v.primitive? = some p then .ok () else .error (v.mismatch p.name)
  | _ => .ok ()

/-- Puts a value at an index. The kind of the value is checked before the index. -/
def set (a : ArrayRef) (index : Int32) (v : Value) : Host Unit := do
  Host.ofExcept (accepts a.component v)
  let h ← MonadState.get
  let items := h.elements a
  let i ← Host.ofExcept (checkIndex index items.length)
  MonadState.set (h.setElements a (items.set i v))

end ArrayRef

/-- The fault of a value whose state is not of the kind that a host member works on. -/
def Value.stateMismatch (kind : String) : Value → HostFault
  | .null => .nullTarget
  | .object o => .typeMismatch kind ("object of class " ++ o.cls.text)
  | v => v.mismatch kind

/-- The object behind a value and what a reading of its state finds there. -/
def Value.stateAs {σ : Type} (kind : String) (read : ObjectState → Option σ) (v : Value) :
    Host (ObjectRef × σ) := do
  match v with
  | .object o =>
    match read ((← get).state o) with
    | some s => pure (o, s)
    | none => Host.fail (v.stateMismatch kind)
  | _ => Host.fail (v.stateMismatch kind)

/-- A new object as a value. -/
def Host.create (cls : ClassId) (s : ObjectState) : Host Value :=
  modifyGet fun h => let (o, h) := h.newObject cls s; (.object o, h)

end MemberAccess
