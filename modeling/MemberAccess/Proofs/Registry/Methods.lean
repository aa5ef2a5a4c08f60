import MemberAccess.Overload
import MemberAccess.Policy
import MemberAccess.Proofs.Registry.Linearization

/-!
# Registries that differ in methods

Methods decide nothing about where a class stands. With other methods in its classes, a registry has the same paths,
distances and lineages, and a policy shows the same classes and denies the same members.

* `Registry.withMethods`: the registry with other methods in its classes.
* `lineage_withMethods`: no class moves; `callCost_withMethods`: a call costs the same.
* `Policy.allowsMethod_withMethods`: what is allowed stays allowed.
-/

namespace MemberAccess

variable (f : ClassDef → List Method)

def ClassDef.withMethods (d : ClassDef) (f : ClassDef → List Method) : ClassDef := { d with methods := f d }

def Registry.withMethods (r : Registry) (f : ClassDef → List Method) : Registry :=
  { r with classes := r.classes.map (·.withMethods f) }

namespace Policy

variable (P : Policy) (d : ClassDef)

theorem showsClass_withMethods : P.showsClass (d.withMethods f) = P.showsClass d := by
  induction P with
  | unrestricted | restricted => rfl
  | granting base names ih => simp only [showsClass, ih]; rfl
  | narrowed base rules ih => simp only [showsClass, ih]; rfl

theorem deniesMember_withMethods (sort : Rule.MemberSort) (name : String) :
    P.deniesMember (d.withMethods f) sort name = P.deniesMember d sort name := by
  induction P with
  | unrestricted | restricted => rfl
  | granting base names ih => exact ih
  | narrowed base rules ih => simp only [deniesMember, ih]; rfl

theorem allowsClass_withMethods : P.allowsClass (d.withMethods f) = P.allowsClass d := by
  unfold allowsClass
  rw [showsClass_withMethods]
  rfl

theorem allowsMethod_withMethods (m : Method) : P.allowsMethod (d.withMethods f) m = P.allowsMethod d m := by
  unfold allowsMethod
  rw [allowsClass_withMethods, deniesMember_withMethods]

end Policy

namespace Registry

variable (r : Registry)

theorem class?_withMethods (c : ClassId) : (r.withMethods f).class? c = (r.class? c).map (·.withMethods f) := by
  unfold class? withMethods
  rw [List.getElem?_map]

theorem size_withMethods : (r.withMethods f).size = r.size := by simp [size, withMethods]

theorem supertypes_withMethods (c : ClassId) : (r.withMethods f).supertypes c = r.supertypes c := by
  unfold supertypes
  rw [class?_withMethods]
  cases r.class? c <;> rfl

theorem above_withMethods (layer : List ClassId) : (r.withMethods f).above layer = r.above layer := by
  unfold above
  rw [funext (r.supertypes_withMethods f)]

theorem climb_withMethods (target : ClassId) (n : Nat) (layer : List ClassId) :
    (r.withMethods f).climb target n layer = r.climb target n layer := by
  induction n generalizing layer with
  | zero => rfl
  | succ n ih => simp only [climb, above_withMethods, ih]

theorem distance_withMethods (source target : ClassId) :
    (r.withMethods f).distance source target = r.distance source target := by
  have hsteps : ∀ a b, (r.withMethods f).steps a b = r.steps a b := by
    intro a b
    unfold steps
    rw [size_withMethods, climb_withMethods]
  have hwithin : ∀ n a b, (r.withMethods f).distanceWithin n a b = r.distanceWithin n a b := by
    intro n
    induction n with
    | zero | succ n ih =>
      intro a b
      unfold distanceWithin
      rw [class?_withMethods, class?_withMethods]
      cases r.class? a <;> cases r.class? b <;> simp_all [ClassDef.withMethods]
  unfold distance
  rw [size_withMethods, hwithin]

theorem describe_withMethods (name : String) (params : List Ty) :
    (r.withMethods f).describe name params = r.describe name params := by
  have htype : (r.withMethods f).typeName = r.typeName := by
    funext t
    cases t with
    | primitive | null => rfl
    | ofClass c =>
      unfold typeName
      simp only [class?_withMethods]
      cases r.class? c <;> rfl
  unfold describe
  rw [htype]

theorem chain_withMethods (n : Nat) (d : ClassDef) :
    (r.withMethods f).chain n (d.withMethods f) = (r.chain n d).map (·.withMethods f) := by
  induction n generalizing d with
  | zero => rfl
  | succ n ih =>
    have hsuper : (d.withMethods f).superclass.bind (r.withMethods f).class? =
        (d.superclass.bind r.class?).map (·.withMethods f) := by
      change d.superclass.bind _ = _
      cases d.superclass with
      | none => rfl
      | some s => exact r.class?_withMethods f s
    unfold chain
    rw [hsuper]
    cases d.superclass.bind r.class? with
    | none => rfl
    | some e => simp only [Option.map_some, List.map_cons, ih]

/-- The walk with other methods in the classes that it has found. -/
def Walk.withMethods (w : Walk) (f : ClassDef → List Method) : Walk := { w with found := w.found.map (·.withMethods f) }

theorem walk_withMethods (n : Nat) (interfaces : List ClassId) (w : Walk) :
    (r.withMethods f).walk n interfaces (w.withMethods f) = (r.walk n interfaces w).withMethods f := by
  induction n generalizing interfaces w with
  | zero => rfl
  | succ n ih =>
    induction interfaces generalizing w with
    | nil => rfl
    | cons i rest ihl =>
      rw [walk_cons, walk_cons, ← ihl]
      congr 1
      change (if i ∈ w.met then w.withMethods f else _) = _
      split
      · rfl
      · rw [class?_withMethods]
        cases r.class? i with
        | none => rfl
        | some d =>
          rw [← ih]
          simp [Walk.withMethods, ClassDef.withMethods]

/-- **Other methods move no class.** -/
theorem lineage_withMethods (d : ClassDef) :
    (r.withMethods f).lineage (d.withMethods f) = (r.lineage d).map (·.withMethods f) := by
  unfold lineage
  rw [size_withMethods, chain_withMethods, List.foldl_map]
  -- the walks from one class of the chain to the next, from any state
  suffices ∀ (l : List ClassDef) (w : Walk),
      (l.foldl (fun w s => (r.withMethods f).walk (r.size + 1) (s.withMethods f).interfaces
          { w with found := w.found ++ [s.withMethods f] }) (w.withMethods f)) =
        (l.foldl (fun w s => r.walk (r.size + 1) s.interfaces { w with found := w.found ++ [s] }) w).withMethods f from
    congrArg Walk.found (this (r.chain r.size d) {})
  intro l
  induction l with
  | nil => intro w; rfl
  | cons s rest ih =>
    intro w
    rw [List.foldl_cons, List.foldl_cons, ← ih, ← walk_withMethods]
    simp [Walk.withMethods, ClassDef.withMethods]

end Registry

/-- **A call costs the same.** -/
theorem callCost_withMethods (r : Registry) (formals actuals : List Ty) :
    callCost (r.withMethods f) formals actuals = callCost r formals actuals := by
  have hcost : conversionCost (r.withMethods f) = conversionCost r := by
    funext formal actual
    simp only [conversionCost, Registry.distance_withMethods]
  have hcosts : conversionCosts (r.withMethods f) formals actuals = conversionCosts r formals actuals := by
    induction formals generalizing actuals with
    | nil => cases actuals <;> rfl
    | cons formal formals ih => cases actuals <;> simp only [conversionCosts, hcost, ih]
  rw [callCost, hcosts, callCost]

end MemberAccess
