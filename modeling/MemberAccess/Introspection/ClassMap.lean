import MemberAccess.Overload
import MemberAccess.Policy

/-!
# Class maps

The map of a class under a policy indexes the public methods along its lineage by signature, the first
one with a signature winning, and the public fields that the class declares itself. A denied method
takes its signature as well and is recorded as a miss. Looking up another signature ranks the admitted
overloads of the name, and the outcome is kept in the index.

* `ClassMap.build`: the map of a class, none when it exposes nothing.
* `ClassMap.find`: the method for a signature, with the map that remembers the outcome.
-/

namespace MemberAccess

/-- What is known about a signature. A tie keeps the descriptions of the tied candidates. -/
inductive Lookup (α : Type) where
  | found (a : α)
  | miss
  | ambiguous (candidates : List String)

/-- The outcome of a choice, ready to be kept. -/
def Lookup.ofChoice {α : Type} (describe : α → String) : Choice α → Lookup α
  | .none => .miss
  | .one a => .found a
  | .tie candidates => .ambiguous (candidates.map describe)

/-- Several overloads cost the same least amount for a call. -/
structure AmbiguousCall where
  cls : String
  call : String
  candidates : List String
deriving DecidableEq

def AmbiguousCall.message (a : AmbiguousCall) : String :=
  "Ambiguous method invocation: " ++ a.cls ++ "." ++ a.call ++ ", candidates: " ++
    ", ".intercalate a.candidates

/-- The answer that a kept outcome gives to a call. -/
def Lookup.answer {α : Type} (r : Registry) (cls : String) (s : Signature) :
    Lookup α → Except AmbiguousCall (Option α)
  | .found a => .ok (some a)
  | .miss => .ok none
  | .ambiguous candidates => .error ⟨cls, s.describe r, candidates⟩

/-- The methods and fields that one class exposes, and the lookups made so far. `serial` tells the
maps of one introspector apart. -/
structure ClassMap where
  cls : ClassId
  className : String
  index : List (Signature × Lookup Method)
  admitted : List Method
  fields : List Field
  serial : Nat := 0

/-- The public methods that a class contributes to the maps of its subtypes. -/
def Policy.offers (p : Policy) (d : ClassDef) : List Method :=
  if d.isPublic && p.allowsClass d then d.methods.filter (·.isPublic) else []

/-- The index and the admitted methods while a map is being filled. -/
structure Population where
  index : List (Signature × Lookup Method) := []
  admitted : List Method := []

/-- Enters a method unless its signature is taken; a denied one takes it without being admitted. -/
def Population.enter (policy : Policy) (d : ClassDef) (w : Population) (m : Method) : Population :=
  let s := Signature.ofMethod m
  if (Assoc.get? s w.index).isSome then w
  else if policy.allowsMethod d m then
    { index := w.index ++ [(s, .found m)], admitted := w.admitted ++ [m] }
  else { w with index := w.index ++ [(s, .miss)] }

/-- The methods along a lineage, in order. -/
def Population.ofLineage (policy : Policy) (lineage : List ClassDef) : Population :=
  lineage.foldl (fun w d => (policy.offers d).foldl (Population.enter policy d) w) {}

/-- The fields that a class exposes: its own public ones, if it is public. -/
def Policy.shownFields (p : Policy) (d : ClassDef) : List Field :=
  if d.isPublic then d.fields.filter fun f => f.isPublic && p.allowsField d f else []

namespace ClassMap

/-- The map of a class. A class that is unknown, retired or denied has none, nor has one without
methods and fields. -/
def build (r : Registry) (policy : Policy) (c : ClassId) : Option ClassMap := do
  let d ← r.class? c
  guard (r.isAlive c && policy.allowsClass d)
  let methods := Population.ofLineage policy (r.lineage d)
  let fields := policy.shownFields d
  guard (!(methods.index.isEmpty && fields.isEmpty))
  some { cls := c, className := d.qualifiedName, index := methods.index,
         admitted := methods.admitted, fields := fields }

/-- The admitted overloads of a name, in the order they were found. -/
def overloads (m : ClassMap) (name : String) : List Method := m.admitted.filter (·.name = name)

/-- Ranks the overloads of a signature's name. -/
def resolve (m : ClassMap) (r : Registry) (s : Signature) : Lookup Method :=
  .ofChoice (fun c => r.describe c.name c.params) (choose r (·.params) s.params (m.overloads s.name))

/-- What the map knows about a signature, ranking the overloads when it knows nothing yet. -/
def lookup (m : ClassMap) (r : Registry) (s : Signature) : Lookup Method :=
  match Assoc.get? s m.index with
  | some known => known
  | none => m.resolve r s

/-- The map with what it knows about a signature kept. -/
def remember (m : ClassMap) (r : Registry) (s : Signature) : ClassMap :=
  { m with index := Assoc.put s (m.lookup r s) m.index }

/-- The method for a signature, and the map afterwards. -/
def find (m : ClassMap) (r : Registry) (s : Signature) :
    Except AmbiguousCall (Option Method) × ClassMap :=
  ((m.lookup r s).answer r m.className s, m.remember r s)

/-- The field of a name; of two the later one. -/
def field? (m : ClassMap) (name : String) : Option Field := m.fields.reverse.find? (·.name = name)

/-- Distinct names in order. -/
def sortedNames (names : List String) : List String := names.eraseDups.mergeSort fun a b => a ≤ b

def methodNames (m : ClassMap) : List String := sortedNames (m.admitted.map (·.name))

def fieldNames (m : ClassMap) : List String := sortedNames (m.fields.map (·.name))

end ClassMap

end MemberAccess
