import MemberAccess.Proofs.Introspection.History
import MemberAccess.Proofs.Session.Applicability

/-!
# Bindings that have just been found

A binding rebuilds the arguments of its member: a list is given an int for an index that may have been a float,
a method for keys may be given the int that a text spells, a setter is given the value alone. The member was looked
for with types, and may have been remembered for them. Used at once, with the target and the value or arguments
that it was looked for with, a binding of any sort hands over what its member was looked for with, so that all of it
fits and the code of the member is reached.

* `Discovery.access?`: using what has been found at once.
* `Access.Fits`: what host code can rely on.
* `Introspector.MakersFit`: constructors that are remembered for some types can be called with them.
* `WriteRoute.Changes`, `WriteRoute.Found.changes`: a field that is found for writing can change.
* `Discovery.fits_search`: what is found in a memory whose answers are good fits.
* `Session.found_fits`: whatever an engine finds in any run.
-/

namespace MemberAccess

variable {r r' : Registry}

/-- Using a binding with the target and the value or arguments that it has been found for. An overload that was
looked for on a class is called on any `receiver`. -/
def Discovery.access? (receiver : Value) : Discovery → Binding → Option Access
  | read _ target _, .reader b => some (b.access target)
  | write _ target _ v, .writer b => some (b.access target v)
  | call target _ args, .caller b => some (b.access target args)
  | callOn _ _ args, .caller b => some (b.access receiver args)
  | create _ args, .creator b => some (b.access args)
  | _, _ => none

namespace Access

/-- The types that are declared for what an access hands to host code. -/
def formals : Access → List Ty
  | call m _ _ | store m _ _ _ => m.params
  | writeField f _ _ => [f.type]
  | create c _ _ => c.params
  | readField .. | readElement .. | writeElement .. => []

/-- What an access hands to host code. -/
def arguments : Access → List Value
  | call _ _ args | store _ _ args _ | create _ _ args => args
  | writeField _ _ v => [v]
  | readField .. | readElement .. | writeElement .. => []

/-- The code of the member that an access runs, without the check that there are enough arguments. -/
def code : Access → Host Value
  | call m target args => m.body target args
  | store m target args v => do
    let _ ← m.body target args
    pure v
  | create c _ args => c.make args
  | a => a.host

/-- What host code can rely on when an access reaches it. -/
structure Fits (r : Registry) (a : Access) : Prop where
  applicable : a.Applicable r
  count : a.arguments.length = a.formals.length
  /-- null is not passed for a primitive -/
  nulls : ∀ p ∈ a.formals.zip a.arguments, p.1.isPrimitive = true → p.2 ≠ .null
  changes : ∀ f target v, a = .writeField f target v → f.isFinal = false
  /-- no argument is missing -/
  reached : a.host = a.code

theorem applicable_iff {a : Access} : a.Applicable r ↔
    List.Forall₂ (fun formal v => (conversionCost r formal v.type).isSome = true) a.formals a.arguments := by
  cases a with
  | call m target args | store m target args v => exact List.forall₂_map_right_iff
  | create c name args => exact List.forall₂_map_right_iff
  | writeField f target v => simp [Applicable, formals, arguments]
  | readField | readElement | writeElement => simp [Applicable, formals, arguments]

/-- **What is applicable reaches host code**, and brings null only where null fits. -/
theorem Applicable.fits {a : Access} (h : a.Applicable r)
    (hchanges : ∀ f target v, a = .writeField f target v → f.isFinal = false) : a.Fits r := by
  have hall := applicable_iff.1 h
  have hcount : a.arguments.length = a.formals.length := hall.length_eq.symm
  refine ⟨h, hcount, ?_, hchanges, ?_⟩
  · rintro ⟨formal, v⟩ hp hprimitive hnull
    have hcost := (List.forall₂_iff_zip.1 hall).2 hp
    simp only at hprimitive hnull hcost
    rw [hnull] at hcost
    simp [conversionCost, Value.type, hprimitive] at hcost
  · cases a with
    | call m target args | store m target args v =>
      have henough : ¬args.length < m.params.length := Nat.not_lt.2 (Nat.le_of_eq hcount.symm)
      simp only [host, code, Method.invoke, henough, if_false]
    | create c name args =>
      have henough : ¬args.length < c.params.length := Nat.not_lt.2 (Nat.le_of_eq hcount.symm)
      simp only [host, code, Constructor.create, henough, if_false]
    | readField | writeField | readElement | writeElement => rfl

end Access

/-! ## Constructors that are remembered -/

namespace Introspector

variable {k : Introspector}

/-- Constructors that are remembered for some types can be called with arguments of these. -/
def MakersFit (r : Registry) (k : Introspector) : Prop :=
  ∀ s x, (s, Lookup.found x) ∈ k.constructors → (callCost r x.params s.params).isSome = true

theorem makersFit_touch (hk : k.MakersFit r) (t : Touch) : (k.touch r t).MakersFit r := by
  intro s x h
  rcases mem_constructors_touch h with h | ⟨name, args, d, -, -, heq⟩
  · exact hk s x h
  · obtain ⟨rfl, hfound⟩ := Prod.mk.inj heq
    exact (of_ranked_found hfound.symm).2

theorem MakersFit.growsTo (hp : r.Proper) (hr : r.GrowsTo r') (hk : k.MakersFit r) : k.MakersFit r' := by
  intro s x h
  obtain ⟨cost, hcost⟩ := Option.isSome_iff_exists.1 (hk s x h)
  rw [callCost_some_growsTo hp hr hcost]
  rfl

/-- **A constructor that is found** can be called with arguments of the types that it was looked for with. -/
theorem MakersFit.findConstructor (hk : k.MakersFit r) {name : String} {args : List Value} {x : Constructor}
    (h : (k.findConstructor r name args).1 = .ok (some x)) :
    (callCost r x.params (args.map (·.type))).isSome = true := by
  have hafter := makersFit_touch hk (.constructor name args)
  simp only [touch] at hafter
  rcases findConstructor_cases k r name args with e | ⟨d, -, -, e⟩ <;> rw [e] at h hafter
  · cases h
  · -- what is answered is remembered from now on
    apply hafter (.ofArgs name args) x
    apply Assoc.mem_of_get?
    rw [Assoc.get?_put, if_pos rfl]
    cases hl : k.constructorLookup r d (.ofArgs name args) <;> rw [hl] at h <;> cases h
    rfl

end Introspector

/-! ## Fields that are written -/

section Searches

variable {I : Introspector → Prop} {c : ClassId}

/-- A field that a writer goes through can change, and takes values of a type. -/
def WriteRoute.Changes (r : Registry) (type : Ty) : WriteRoute → Prop
  | .field f => f.isFinal = false ∧ (conversionCost r f.type type).isSome = true
  | .map .. | .list .. | .setter .. | .duck .. => True

/-- **A field that is found for writing** can change, and takes the value. -/
theorem WriteRoute.Found.changes {key v : Value} {route : WriteRoute} (h : route.Found I r c key v) :
    route.Changes r v.type := by
  cases h with
  | field _ _ hfinal hfits => exact ⟨hfinal, hfits⟩
  | map | list | setter | duck => trivial

/-! ## What is found fits -/

/-- **Reading at once**: the method takes what it is given. -/
theorem ReadRoute.FoundFor.applicable {route : ReadRoute} {key : Value} (h : route.FoundFor (·.Takes r) key)
    (target : Value) : (route.access target).Applicable r := by
  cases route with
  | field => trivial
  | map m bound =>
    obtain ⟨rfl, htakes⟩ := h
    exact htakes
  | list source index =>
    cases source with
    | array => trivial
    | list m => exact h.2
  | getter | flag | duck => exact h

/-- **Writing at once**: the method takes what it is given, and so does a field. -/
theorem WriteRoute.BoundTo.applicable {route : WriteRoute} {key v : Value} (h : route.BoundTo (·.Takes r) key v.type)
    (hfield : route.Changes r v.type) (target : Value) : (route.access target v).Applicable r := by
  cases route with
  | field => exact hfield.2
  | map m bound =>
    obtain ⟨rfl, htakes⟩ := h
    exact htakes
  | list source index =>
    cases source with
    | array => trivial
    | list m => exact h.2
  | setter => exact h.2
  | duck m bound =>
    obtain ⟨rfl, -, htakes⟩ := h
    exact htakes

/-- A reader writes no field. -/
theorem ReadRoute.access_ne_writeField (route : ReadRoute) (target : Value) {f : Field} {target' v : Value} :
    route.access target ≠ .writeField f target' v := by
  intro h
  cases route with
  | list source => cases source <;> cases h
  | field | map | getter | flag | duck => cases h

/-- Only a writer that goes through a field writes one. -/
theorem WriteRoute.Changes.of_access {route : WriteRoute} {type : Ty} (h : route.Changes r type) {target v : Value}
    {f : Field} {target' v' : Value} (ha : route.access target v = .writeField f target' v') : f.isFinal = false := by
  cases route with
  | field =>
    cases ha
    exact h.1
  | list source =>
    cases source <;> cases ha
  | map | setter | duck => cases ha

/-- **What is found in a memory whose answers can be called fits**, whatever was asked for. -/
theorem Discovery.fits_search (hI : Introspector.KeptByQueries r I)
    (hgood : Introspector.FindsGood I r (·.Takes r))
    (hmakers : ∀ {k name args x}, I k → (k.findConstructor r name args).1 = .ok (some x) →
      (callCost r x.params (args.map (·.type))).isSome = true) (e : Engine) (d : Discovery) (receiver : Value) :
    (d.search e r).Ensures I r
      (fun found => ∀ b ∈ found, ∃ a, d.access? receiver b = some a ∧ a.Fits r) := by
  -- nothing but a writer writes a field
  have hcall : ∀ {m target args}, m.Takes r (args.map (·.type)) → (Access.call m target args).Fits r :=
    fun h => Access.Applicable.fits h (fun _ _ _ ha => by cases ha)
  cases d with
  | read order target key =>
    apply (Resolver.found_firstReader hI _ target key).map
    intro found hfound
    refine Option.forall_mem_map.2 fun b hb => ⟨b.access target, rfl, ?_⟩
    have hbound : b.route.FoundFor (·.Takes r) key := (hfound b hb).1.2.foundFor hgood
    apply (hbound.applicable target).fits
    exact fun f target' v ha => absurd ha (b.route.access_ne_writeField target)
  | write order target key v =>
    apply (Resolver.found_firstWriter hI _ target key v).map
    intro found hfound
    refine Option.forall_mem_map.2 fun b hb => ⟨b.access target v, rfl, ?_⟩
    have hroute := (hfound b hb).1.2
    have hbound : b.route.BoundTo (·.Takes r) key v.type := hroute.boundTo hgood
    apply (hbound.applicable hroute.changes target).fits
    exact fun f target' v' ha => hroute.changes.of_access ha
  | call target name args =>
    exact (Engine.found_findCaller hI target name args).map fun _ h =>
      Option.forall_mem_map.2 fun b hb => ⟨b.access target args, rfl, hcall ((h b hb).1.gives.isGood hgood)⟩
  | callOn c name args =>
    exact (Engine.found_findCallerOn hI name args).map fun _ h =>
      Option.forall_mem_map.2 fun b hb => ⟨b.access receiver args, rfl, hcall ((h b hb).1.gives.isGood hgood)⟩
  | create name args =>
    apply (Engine.found_findCreator hI name args).map
    intro found hfound
    refine Option.forall_mem_map.2 fun b hb => ⟨b.access args, rfl, ?_⟩
    obtain ⟨k, hk, hanswer⟩ := (hfound b hb).1.answer
    have happlicable : (b.access args).Applicable r := forall₂_of_callCost (hmakers hk hanswer)
    exact happlicable.fits (fun _ _ _ ha => by cases ha)

end Searches

namespace Session

theorem invariant_makersFit : Invariant fun r k =>
    r.Proper ∧ Registry.initial.GrowsTo r ∧ k.Grounded r ∧ k.MakersFit r where
  touch t h := ⟨h.1, h.2.1, Introspector.grounded_touch h.2.2.1 t, Introspector.makersFit_touch h.2.2.2 t⟩
  change c h :=
    have hgrows := Registry.growsTo_apply _ c
    ⟨Registry.proper_apply h.1 c, h.2.1.trans hgrows, h.2.2.1.growsTo h.1 hgrows, h.2.2.2.growsTo h.1 hgrows⟩

/-- **Whatever an engine finds fits**: take a binding of any sort that an engine finds in any run, and use it at
once, with the target and the value or arguments that it was looked for with. Its member is given as many arguments
as it has parameters, and each can be passed to its parameter, so that none is missing and no primitive is null; a
field that is written can change, and takes the value. -/
theorem found_fits (policy : Nat → Policy) (strategy : Nat → Strategy) (heap : Heap) (es : List Event) (i : Nat)
    (d : Discovery) (b : Binding) :
    let s := (start policy strategy heap).run es
    (d.search (s.engines i) s.registry (s.memory i)).1 = .ok (some b) →
      ∀ receiver, ∃ a, d.access? receiver b = some a ∧ a.Fits s.registry := by
  intro s hfound receiver
  obtain ⟨-, -, hgrounded, hmakers⟩ := invariant_makersFit.run (s := start policy strategy heap) (i := i)
    ⟨Registry.proper_initial, .refl _, Introspector.grounded_new _ _, fun _ _ h => by cases h⟩ es
  -- a search only asks queries, and these keep what has been found callable
  have hkept : Introspector.KeptByQueries s.registry fun k => k.Grounded s.registry ∧ k.MakersFit s.registry :=
    Introspector.keptByQueries_of_touch fun t h =>
      ⟨Introspector.grounded_touch h.1 t, Introspector.makersFit_touch h.2 t⟩
  exact (Discovery.fits_search hkept (fun h hm => forall₂_of_callCost (h.1.findMethod hm))
    (fun h hx => h.2.findConstructor hx) (s.engines i) d receiver (s.memory i) ⟨hgrounded, hmakers⟩).2.1 _ hfound b rfl

theorem found_fits_bag :
    let d := Discovery.write (.style .dot) aBag (.string "a") (.string "x")
    (d.search (bagged.engines 0) bagged.registry (bagged.memory 0)).1 = .ok (some (.writer bagWriter)) ∧
      ∃ a, d.access? .null (.writer bagWriter) = some a ∧ a.arguments = [.string "a", .string "x"] ∧
        a.Fits bagged.registry := by
  intro d
  have hfound : (d.search (bagged.engines 0) bagged.registry (bagged.memory 0)).1 = .ok (some (.writer bagWriter)) :=
    rfl
  obtain ⟨a, ha, hfits⟩ := found_fits (fun _ => .unrestricted) (fun _ => .pojo) {} [.change (.register bag)] 0 d
    (.writer bagWriter) hfound .null
  cases ha
  exact ⟨hfound, _, rfl, rfl, hfits⟩

end Session

end MemberAccess
