import MemberAccess.Introspection.ClassMap

/-!
# Introspectors

An introspector answers what a policy shows of the classes of a registry, and keeps what it found: one
map per class, made when it is first asked for, and the constructors chosen so far. A map whose class
has been retired is dropped when it is asked for.

* `Introspector.mapOf`: the map of a class, and the introspector afterwards.
* `Introspector.findMethod`, `Introspector.findConstructor`: overloads chosen through the memory.
-/

namespace MemberAccess

/-- The memory of one policy. `maps` holds `none` for a class that exposes nothing; `dropped` are the
maps that have been dropped and may still be held by someone. -/
structure Introspector where
  policy : Policy
  maps : List (ClassId × Option ClassMap) := []
  constructors : List (Signature × Lookup Constructor) := []
  dropped : List ClassMap := []
  serials : Nat := 0

namespace Introspector

/-- Whether a kept map can still be used: the map of nothing always can. -/
def usable (r : Registry) : Option ClassMap → Bool
  | none => true
  | some m => r.isAlive m.cls

/-- Drops the map of a class and the constructors found for its name; whether there was a map. -/
def purge (s : Introspector) (r : Registry) (c : ClassId) : Bool × Introspector :=
  let constructors := match r.class? c with
    | some d => s.constructors.filter fun e => e.1.name ≠ d.qualifiedName
    | none => s.constructors
  let kept := Assoc.get? c s.maps
  (kept.isSome,
    { s with
      constructors := constructors
      maps := Assoc.erase c s.maps
      -- who holds the map goes on looking up in it
      dropped := (kept.bind id).toList ++ s.dropped })

/-- The map of a class. -/
def mapOf (s : Introspector) (r : Registry) (c : ClassId) : Option ClassMap × Introspector :=
  match Assoc.get? c s.maps with
  | some kept => if usable r kept then (kept, s) else (none, (s.purge r c).2)
  | none =>
    let built := (ClassMap.build r s.policy c).map ({ · with serial := s.serials })
    (built, { s with maps := Assoc.put c built s.maps, serials := s.serials + 1 })

/-- How many classes have a map kept. -/
def mapCount (s : Introspector) : Nat := s.maps.length

/-- The method of a class for a signature. -/
def findMethod (s : Introspector) (r : Registry) (c : ClassId) (sig : Signature) :
    Except AmbiguousCall (Option Method) × Introspector :=
  match s.mapOf r c with
  | (none, s) => (.ok none, s)
  | (some m, s) =>
    let (answer, m) := m.find r sig
    (answer, { s with maps := Assoc.put c (some m) s.maps })

/-- The exposed field of a name. -/
def findField (s : Introspector) (r : Registry) (c : ClassId) (name : String) :
    Option Field × Introspector :=
  let (m, s) := s.mapOf r c
  (m.bind (·.field? name), s)

/-- The admitted overloads of a name. -/
def overloads (s : Introspector) (r : Registry) (c : ClassId) (name : String) :
    List Method × Introspector :=
  let (m, s) := s.mapOf r c
  ((m.map (·.overloads name)).getD [], s)

/-- The names of the admitted methods, in order. -/
def methodNames (s : Introspector) (r : Registry) (c : ClassId) : List String × Introspector :=
  let (m, s) := s.mapOf r c
  ((m.map (·.methodNames)).getD [], s)

/-- The names of the exposed fields, in order. -/
def fieldNames (s : Introspector) (r : Registry) (c : ClassId) : List String × Introspector :=
  let (m, s) := s.mapOf r c
  ((m.map (·.fieldNames)).getD [], s)

/-- The visible class of a qualified name. -/
def visibleClass? (s : Introspector) (r : Registry) (name : String) : Option ClassId := do
  let d ← r.named? name
  guard (r.isAlive d.id && s.policy.allowsClass d)
  some d.id

/-- Whether scripts may make instances of a class. -/
def constructible (s : Introspector) (r : Registry) (d : ClassDef) : Bool :=
  r.isAlive d.id && d.isPublic && !d.isInterface && s.policy.allowsClass d

/-- The constructors of a class that scripts may use. -/
def shownConstructors (s : Introspector) (d : ClassDef) : List Constructor :=
  d.constructors.filter fun c => c.isPublic && s.policy.allowsConstructor d

/-- What is known about making an instance of a class, ranking its constructors when nothing is. -/
def constructorLookup (s : Introspector) (r : Registry) (d : ClassDef) (sig : Signature) :
    Lookup Constructor :=
  match Assoc.get? sig s.constructors with
  | some known => known
  | none =>
    .ofChoice (fun c => r.describe "<init>" c.params)
      (choose r (·.params) sig.params (s.shownConstructors d))

/-- The constructor of a class, by its qualified name, for a call with some arguments. -/
def findConstructor (s : Introspector) (r : Registry) (name : String) (args : List Value) :
    Except AmbiguousCall (Option Constructor) × Introspector :=
  match r.named? name with
  | none => (.ok none, s)
  | some d =>
    if s.constructible r d then
      let sig := Signature.ofArgs name args
      let known := s.constructorLookup r d sig
      (known.answer r name sig, { s with constructors := Assoc.put sig known s.constructors })
    else (.ok none, s)

/-- The maps that someone may hold: those that are kept and those that have been dropped. -/
def held (s : Introspector) : List ClassMap := s.maps.filterMap (·.2) ++ s.dropped

/-- A map by its serial, kept or dropped. -/
def held? (s : Introspector) (serial : Nat) : Option ClassMap := s.held.find? (·.serial = serial)

/-- The method for a signature in a map that someone holds; what is found is remembered there. -/
def findInHeld (s : Introspector) (r : Registry) (m : ClassMap) (sig : Signature) :
    Except AmbiguousCall (Option Method) × Introspector :=
  let (answer, after) := m.find r sig
  let renew (n : ClassMap) : ClassMap := if n.serial = m.serial then after else n
  (answer,
    { s with
      maps := s.maps.map fun e => (e.1, e.2.map renew)
      dropped := s.dropped.map renew })

end Introspector

end MemberAccess
