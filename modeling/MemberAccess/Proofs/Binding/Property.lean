import MemberAccess.Proofs.Binding.Origin

/-!
# What bindings are bound to

A reader or writer that is found is bound to the property that it was looked for with, and a writer to the
type of the value as well. Used again for that very property, it makes the access that it was found for.

* `ReadRoute.BoundTo`, `WriteRoute.BoundTo`: this; for a writer, with what its method is `good` for.
* `ReadRoute.FoundFor`: the same for a reader, with what its method is `good` for.
* `ReadRoute.Found.foundFor`, `WriteRoute.Found.boundTo`: what is found is bound.
* `replay?_eq_access`: an access made again.
-/

namespace MemberAccess

variable {I : Introspector → Prop} {r : Registry} {c : ClassId} {good : Method → List Ty → Prop}

/-- The reader is bound to a property, or to the index that the property stands for. -/
def ReadRoute.BoundTo (key : Value) : ReadRoute → Prop
  | .map _ bound => bound = key
  | .list _ index => key.toIndex? = some index
  | .field _ | .getter .. | .flag .. | .duck .. => True

/-- The reader has been found for a property: it is bound to it, and its method is good for arguments of the types
that it was looked for with. -/
def ReadRoute.FoundFor (good : Method → List Ty → Prop) (key : Value) : ReadRoute → Prop
  | .field _ => True
  | .map m bound => bound = key ∧ good m [key.type]
  | .list .array index => key.toIndex? = some index
  | .list (.list m) index => key.toIndex? = some index ∧ good m [.ofClass .integer]
  | .getter m _ | .flag m _ => good m []
  | .duck m _ argument => good m [argument.type]

theorem ReadRoute.FoundFor.boundTo {route : ReadRoute} {key : Value} (h : route.FoundFor good key) :
    route.BoundTo key := by
  cases route with
  | map => exact h.1
  | list source =>
    cases source with
    | array => exact h
    | list => exact h.1
  | field | getter | flag | duck => trivial

/-- The writer is bound to a property and to a type of values, and its method is good for arguments of the
types that it was looked for with. -/
def WriteRoute.BoundTo (good : Method → List Ty → Prop) (key : Value) (type : Ty) : WriteRoute → Prop
  | .field _ => True
  | .map m bound => bound = key ∧ good m [key.type, type]
  | .list .array index => key.toIndex? = some index
  | .list (.list m) index => key.toIndex? = some index ∧ good m [.ofClass .integer, type]
  | .setter m _ bound => bound = type ∧ good m [type]
  | .duck m bound bound' => bound = key ∧ bound' = type ∧ good m [key.type, type]

/-- **Reading again for the same property** is the access that the reader was found for. -/
theorem ReadRoute.replay?_eq_access {route : ReadRoute} {target key : Value} {a : Access} (h : route.BoundTo key)
    (ha : route.replay? target key = some a) : a = route.access target := by
  cases route with
  | map m bound =>
    change bound = key at h
    subst h
    simpa [replay?, access] using ha.symm
  | list source index =>
    change key.toIndex? = some index at h
    simpa [replay?, h] using ha.symm
  | field | getter | flag | duck =>
    simp only [replay?] at ha
    split at ha
    · exact (Option.some.inj ha).symm
    · cases ha

/-- **Writing again to the same property** is the access that the writer was found for, with the new value. -/
theorem WriteRoute.replay?_eq_access {good : Method → List Ty → Prop} {route : WriteRoute}
    {target key v : Value} {type : Ty} {a : Access} (h : route.BoundTo good key type)
    (ha : route.replay? target key v = some a) : a = route.access target v := by
  cases route with
  | map m bound =>
    obtain ⟨rfl, -⟩ := h
    simpa [replay?, access] using ha.symm
  | list source index =>
    have hindex : key.toIndex? = some index := by
      cases source with
      | array => exact h
      | list m => exact h.1
    simpa [replay?, hindex] using ha.symm
  | field | setter | duck =>
    simp only [replay?] at ha
    split at ha
    · exact (Option.some.inj ha).symm
    · cases ha

/-! ## Methods that are good for what they were looked for with -/

/-- Every method that is found in a memory with the property is good for the types that it was looked for
with. -/
def Introspector.FindsGood (I : Introspector → Prop) (r : Registry) (good : Method → List Ty → Prop) : Prop :=
  ∀ {k c s m}, I k → (k.findMethod r c s).1 = .ok (some m) → good m s.params

theorem Gives.isGood (hgood : Introspector.FindsGood I r good) {s : Signature} {m : Method} (h : Gives I r c s m) :
    good m s.params := by
  obtain ⟨k, hk, hm⟩ := h
  exact hgood hk hm

/-- **How a reader was found says what it is bound to.** -/
theorem ReadRoute.Found.foundFor (hgood : Introspector.FindsGood I r good) {key : Value} {route : ReadRoute}
    (h : route.Found I r c key) : route.FoundFor good key := by
  cases h with
  | field => trivial
  | map h => exact ⟨rfl, h.isGood hgood⟩
  | list hindex h =>
    cases h with
    | array => exact hindex
    | list h => exact ⟨hindex, h.isGood hgood⟩
  | getter _ h | flag _ h | duck h => exact h.isGood hgood

/-- **How a writer was found says what it is bound to.** -/
theorem WriteRoute.Found.boundTo (hgood : Introspector.FindsGood I r good) {key v : Value} {route : WriteRoute}
    (h : route.Found I r c key v) : route.BoundTo good key v.type := by
  cases h with
  | field => trivial
  | map h => exact ⟨rfl, h.isGood hgood⟩
  | list hindex h =>
    cases h with
    | array => exact hindex
    | list h => exact ⟨hindex, h.isGood hgood⟩
  | setter _ h => exact ⟨rfl, h.isGood hgood⟩
  | duck h => exact ⟨rfl, rfl, h.isGood hgood⟩

/-- **A reader that is found** is bound to the property, and its method is good for what it is called with. -/
theorem Resolver.foundFor_firstReader (hI : Introspector.KeptByQueries r I)
    (hgood : Introspector.FindsGood I r good) (order : List Resolver) (target key : Value) :
    (firstReader order r target key).Ensures I r (fun found => ∀ b ∈ found, b.route.FoundFor good key) :=
  (found_firstReader hI order target key).imp fun _ h b hb => (h b hb).1.2.foundFor hgood

/-- **A writer that is found** is bound to the property and to the type of the value. -/
theorem Resolver.boundTo_firstWriter (hI : Introspector.KeptByQueries r I)
    (hgood : Introspector.FindsGood I r good) (order : List Resolver) (target key v : Value) :
    (firstWriter order r target key v).Ensures I r
      (fun found => ∀ b ∈ found, b.route.BoundTo good key v.type) :=
  (found_firstWriter hI order target key v).imp fun _ h b hb => (h b hb).1.2.boundTo hgood

end MemberAccess
