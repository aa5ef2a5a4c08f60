import MemberAccess.Registry.Basic

/-!
# The class hierarchy

An edge leads from a class to each interface it declares and to its superclass; a class without a
superclass, the root apart, leads to the root. Members are looked for along the `lineage` of a class,
assignability is distance in the graph.

* `Registry.distance`: the least number of edges to a supertype; arrays of references are covariant.
* `Registry.lineage`: the classes on the superclass chain, each followed by its interfaces.
-/

namespace MemberAccess

/-- The direct supertypes of a class. -/
def ClassDef.supertypes (d : ClassDef) : List ClassId :=
  d.interfaces ++ match d.superclass with
    | some s => [s]
    | none => if d.id = .object then [] else [.object]

namespace Registry

/-- The direct supertypes of a registered class; an unknown one has none. -/
def supertypes (r : Registry) (c : ClassId) : List ClassId :=
  ((r.class? c).map (·.supertypes)).getD []

/-- The classes one edge above those of a layer. -/
def above (r : Registry) (layer : List ClassId) : List ClassId :=
  (layer.flatMap r.supertypes).eraseDups

/-- Climbs from a layer until it holds the class that is looked for, at most so many times. -/
def climb (r : Registry) (target : ClassId) : Nat → List ClassId → Option Nat
  | 0, _ => none
  | n + 1, layer =>
    if target ∈ layer then some 0 else (climb r target n (r.above layer)).map (· + 1)

/-- The length of a shortest path; one that repeats no class has fewer edges than there are classes. -/
def steps (r : Registry) (source target : ClassId) : Option Nat := r.climb target r.size [source]

/-- The distance to a supertype, through at most so many layers of arrays. -/
def distanceWithin (r : Registry) (depth : Nat) (source target : ClassId) : Option Nat :=
  if source = target then some 0
  else match r.class? source, r.class? target with
    | some s, some t =>
      match s.component, t.component with
      -- arrays of references vary with their components, and no other array does
      | some (.ofClass a), some (.ofClass b) =>
        match depth with
        | 0 => none
        | d + 1 => distanceWithin r d a b
      | some _, some _ => none
      | _, _ => r.steps source target
    | _, _ => none

/-- The number of edges from a class to a supertype, none when it is no supertype. -/
def distance (r : Registry) (source target : ClassId) : Option Nat :=
  r.distanceWithin (r.size + 1) source target

/-- Whether a value of one class can stand where another is expected. -/
def isAssignable (r : Registry) (source target : ClassId) : Bool := (r.distance source target).isSome

/-- A class and those above it on the superclass chain, at most so many. -/
def chain (r : Registry) : Nat → ClassDef → List ClassDef
  | 0, d => [d]
  | n + 1, d => d :: match d.superclass.bind r.class? with
    | some s => chain r n s
    | none => []

/-- A walk over interfaces: those met so far, and the classes found in order. -/
structure Walk where
  met : List ClassId := []
  found : List ClassDef := []

/-- Walks interfaces depth first, each at its first occurrence. -/
def walk (r : Registry) : Nat → List ClassId → Walk → Walk
  | 0, _, w => w
  | n + 1, interfaces, w =>
    interfaces.foldl (fun w i =>
      if i ∈ w.met then w
      else
        -- met for good, so that no later path reports it again
        let w := { w with met := i :: w.met }
        match r.class? i with
        | some d => walk r n d.interfaces { w with found := w.found ++ [d] }
        | none => w) w

/-- The classes whose members a class may expose, nearest first: each class on the superclass chain,
followed by the interfaces below it that have not come up before. -/
def lineage (r : Registry) (d : ClassDef) : List ClassDef :=
  ((r.chain r.size d).foldl (fun w s =>
    r.walk (r.size + 1) s.interfaces { w with found := w.found ++ [s] }) {}).found

theorem distance_self (r : Registry) (c : ClassId) : r.distance c c = some 0 := by
  unfold distance distanceWithin
  simp

end Registry

end MemberAccess
