import MemberAccess.Proofs.Binding.Trial
import MemberAccess.Proofs.Session.FirstUse

/-!
# Bindings that are used again

A binding checks a trial by a test of its own, and the test must let through what the binding was found for: a method
for indices that was found by the numeral of a text must take that text again, a setter that was found for a value that
widens must take such values again. Otherwise the binding would be of no use, and everything would be searched for each
time.

Only fields are stricter than the searches that find them. A search knows what is above a class. A field knows its own
type, and of other references than null it takes only those of its very class, or all if it is of the root class.

* `Discovery.Repeats`: the situation that a binding was found for, on any instance of the class, with values of the
  same types.
* `Binding.TakesOwn`: a field is given null or a value of its own class.
* `ReadRoute.replay?_again`, `WriteRoute.replay?_again`: what has been found makes its access again.
* `Binding.Replays`: a trial comes to an access of the binding's member, and the access fits.
* `Discovery.replays_search`: this for what is found in a memory whose answers can be called.
* `Session.replays_found`: what an engine finds in any run is done again.
-/

namespace MemberAccess

variable {I : Introspector → Prop} {r : Registry}

/-- The situation of a discovery again: an instance of the class, the very property, a value or arguments of the same
types. -/
inductive Discovery.Repeats : Discovery → Trial → Prop
  | read {order target key target'} (hnull : target'.isNull = false) (hcls : target'.cls = target.cls) :
      Repeats (.read order target key) (.read target' key)
  | write {order target key v target' v'} (hnull : target'.isNull = false) (hcls : target'.cls = target.cls)
      (htype : v'.type = v.type) : Repeats (.write order target key v) (.write target' key v')
  | call {target name args target' args'} (hnull : target'.isNull = false) (hcls : target'.cls = target.cls)
      (htypes : args'.map (·.type) = args.map (·.type)) : Repeats (.call target name args) (.call target' name args')
  | callOn {c name args target' args'} (hnull : target'.isNull = false) (hcls : target'.cls = c)
      (htypes : args'.map (·.type) = args.map (·.type)) : Repeats (.callOn c name args) (.call target' name args')
  | create {name args args'} (htypes : args'.map (·.type) = args.map (·.type)) :
      Repeats (.create name args) (.create name args')

/-- A writer that goes through a field is given null or a value of the field's own class. -/
def WriteRoute.TakesOwn (v : Value) : WriteRoute → Prop
  | .field f => v = .null ∨ f.type.normalized = v.type
  | .map .. | .list .. | .setter .. | .duck .. => True

/-- A trial brings null or a value of the field's own class, if the binding is a writer that goes through a field. -/
def Binding.TakesOwn : Binding → Trial → Prop
  | .writer b, .write _ _ v => b.route.TakesOwn v
  | _, _ => True

/-- The signature of a call depends on the types of the arguments. -/
theorem Signature.ofArgs_congr {name : String} {args args' : List Value}
    (h : args'.map (·.type) = args.map (·.type)) : Signature.ofArgs name args' = .ofArgs name args := by
  unfold ofArgs
  rw [h]

/-- A type that null fits is not primitive. -/
theorem isPrimitive_of_conversionCost_null {formal : Ty} (h : (conversionCost r formal .null).isSome = true) :
    formal.isPrimitive = false := by
  simpa [conversionCost] using h

/-! ## Each family takes what it was found for -/

/-- **A reader that has been found** makes its access again on any target. -/
theorem ReadRoute.replay?_again {good : Method → List Ty → Prop} {route : ReadRoute} {key : Value}
    (h : route.FoundFor good key) (hanswers : route.Answers key) (target : Value) :
    route.replay? target key = some (route.access target) := by
  have hsome : route.replay? target key ≠ none := fun hnone => (replay?_eq_none_iff _ _ _).1 hnone hanswers
  obtain ⟨a, ha⟩ := Option.ne_none_iff_exists'.1 hsome
  rw [ha, replay?_eq_access h.boundTo ha]

namespace WriteRoute

/-- A field takes null where null fits, and values of its own class. -/
theorem plainlyTakes_own {declared : Ty} {v : Value} (hfits : (conversionCost r declared v.type).isSome = true)
    (hown : v = .null ∨ declared.normalized = v.type) : declared.plainlyTakes v = true := by
  by_cases hnull : v = .null
  · subst hnull
    have hclass := isPrimitive_of_conversionCost_null hfits
    simpa [Ty.plainlyTakes, Value.isNull] using hclass
  have hown := hown.resolve_left hnull
  have hisNull : v.isNull = false := by cases v <;> simp_all [Value.isNull]
  have htype : v.type = .ofClass v.cls := by cases v <;> simp_all [Value.type]
  unfold Ty.plainlyTakes
  rw [hisNull]
  cases declared with
  | primitive p =>
    -- the class of the value boxes the very primitive
    have hboxed : p.boxed = v.cls := Ty.ofClass.inj (hown.trans htype)
    have hprimitive : v.primitive? = some p := by
      rw [Value.primitive?, hisNull, ← hboxed]
      exact Primitive.ofBoxed?_boxed p
    simp [hprimitive, Primitive.widening_self]
  | ofClass c => simp [hown]
  | null => simp [hown]

/-- A setter takes the types that it was found for, null among them. -/
theorem setterTakes_again {m : Method} {v : Value} (h : m.Takes r [v.type]) : setterTakes v.type m.params v = true := by
  obtain ⟨p, rest, hp, hrest, hparams⟩ := List.forall₂_cons_right_iff.1 h
  unfold setterTakes
  rw [hparams]
  cases v with
  | null => simpa [Value.isNull] using isPrimitive_of_conversionCost_null hp
  | _ => simp [Value.isNull]

/-- A method for a key and a value takes the types that it was found for, null among them. -/
theorem duckTakes_again {m : Method} {v : Value} {first : Ty} (h : m.Takes r [first, v.type]) :
    duckTakes v.type m.params v = true := by
  obtain ⟨p, q, hparams, -, hq⟩ := takes_pair h
  unfold duckTakes
  simp only [hparams, List.getElem?_cons_succ, List.getElem?_cons_zero]
  cases v with
  | null => simp [Value.isNull, isPrimitive_of_conversionCost_null hq]
  | _ => simp [Value.isNull]

/-- **A writer that has been found takes values of the same type again**, a field those of its own class. -/
theorem accepts_again {route : WriteRoute} {key v : Value} (h : route.BoundTo (·.Takes r) key v.type)
    (hchanges : route.Changes r v.type) (hown : route.TakesOwn v) : route.Accepts v := by
  cases route with
  | field f => exact plainlyTakes_own hchanges.2 hown
  | map | list => trivial
  | setter m name bound =>
    obtain ⟨rfl, htakes⟩ := h
    exact setterTakes_again htakes
  | duck m bound type =>
    obtain ⟨rfl, rfl, htakes⟩ := h
    exact duckTakes_again htakes

/-- **A writer that has been found** makes its access again on any target, with a value that it takes. -/
theorem replay?_again {good : Method → List Ty → Prop} {route : WriteRoute} {key v : Value} {type : Ty}
    (h : route.BoundTo good key type) (hanswers : route.Answers key) (haccepts : route.Accepts v) (target : Value) :
    route.replay? target key v = some (route.access target v) := by
  have hsome : route.replay? target key v ≠ none :=
    fun hnone => (replay?_eq_none_iff _ _ _ _).1 hnone ⟨hanswers, haccepts⟩
  obtain ⟨a, ha⟩ := Option.ne_none_iff_exists'.1 hsome
  rw [ha, replay?_eq_access h ha]

end WriteRoute

/-! ## What is found is done again -/

/-- A trial of the binding comes to an access of its member, and what is handed over fits. -/
def Binding.Replays (r : Registry) (b : Binding) (t : Trial) : Prop :=
  ∃ a, b.replay? t = some a ∧ a.member? = b.member? ∧ a.Fits r

theorem Reader.replays {b : Reader} {target key : Value} (hnull : target.isNull = false) (hcls : target.cls = b.cls)
    (h : b.route.FoundFor (·.Takes r) key) (hanswers : b.route.Answers key) :
    (Binding.reader b).Replays r (.read target key) := by
  have hsame : target.cls = b.cls ∧ (target.isNull = true → b.family = .field) :=
    ⟨hcls, fun h => by rw [hnull] at h; cases h⟩
  have hreplay := ReadRoute.replay?_again h hanswers target
  refine ⟨_, (if_pos hsame).trans hreplay, ReadRoute.replay?_member? hreplay, ?_⟩
  apply (h.applicable target).fits
  exact fun f target' v ha => absurd ha (b.route.access_ne_writeField target)

theorem Writer.replays {b : Writer} {target key v : Value} (hnull : target.isNull = false) (hcls : target.cls = b.cls)
    (h : b.route.BoundTo (·.Takes r) key v.type) (hchanges : b.route.Changes r v.type) (hanswers : b.route.Answers key)
    (hown : b.route.TakesOwn v) : (Binding.writer b).Replays r (.write target key v) := by
  have hsame : target.cls = b.cls ∧ (target.isNull = true → b.family = .field) :=
    ⟨hcls, fun h => by rw [hnull] at h; cases h⟩
  have haccepts : b.route.Accepts v := WriteRoute.accepts_again h hchanges hown
  have hreplay := WriteRoute.replay?_again h hanswers haccepts target
  refine ⟨_, (if_pos hsame).trans hreplay, WriteRoute.replay?_member? hreplay, ?_⟩
  apply (h.applicable hchanges target).fits
  exact fun f target' v' ha => hchanges.of_access ha

theorem Caller.replays {b : Caller} {target : Value} {name : String} {args args' : List Value}
    (hnull : target.isNull = false) (hcls : target.cls = b.cls) (hsignature : b.signature = .ofArgs name args)
    (htakes : b.method.Takes r (args.map (·.type))) (htypes : args'.map (·.type) = args.map (·.type)) :
    (Binding.caller b).Replays r (.call target name args') := by
  have hcall : Signature.ofArgs name args' = b.signature := (Signature.ofArgs_congr htypes).trans hsignature.symm
  rw [← htypes] at htakes
  have happlicable : (b.access target args').Applicable r := htakes
  exact ⟨_, if_pos ⟨hnull, hcls, hcall⟩, rfl, happlicable.fits fun _ _ _ ha => by cases ha⟩

theorem Creator.replays {b : Creator} {name : String} {args args' : List Value}
    (hsignature : b.signature = .ofArgs name args)
    (htakes : (callCost r b.constructor.params (args.map (·.type))).isSome = true)
    (htypes : args'.map (·.type) = args.map (·.type)) : (Binding.creator b).Replays r (.create name args') := by
  have hcall : Signature.ofArgs name args' = b.signature := (Signature.ofArgs_congr htypes).trans hsignature.symm
  rw [← htypes] at htakes
  have happlicable : (b.access args').Applicable r := forall₂_of_callCost htakes
  exact ⟨_, if_pos hcall, rfl, happlicable.fits fun _ _ _ ha => by cases ha⟩

/-- **What is found in a memory whose answers can be called** is done again in the same situation. -/
theorem Discovery.replays_search (hI : Introspector.KeptByQueries r I)
    (hgood : Introspector.FindsGood I r (·.Takes r))
    (hmakers : ∀ {k name args x}, I k → (k.findConstructor r name args).1 = .ok (some x) →
      (callCost r x.params (args.map (·.type))).isSome = true) (e : Engine) (d : Discovery) :
    (d.search e r).Ensures I r (fun found => ∀ b ∈ found, ∀ t, d.Repeats t → b.TakesOwn t → b.Replays r t) := by
  cases d with
  | read order target key =>
    apply (Resolver.found_firstReader hI _ target key).map
    intro found hfound
    refine Option.forall_mem_map.2 fun b hb t ht _ => ?_
    obtain ⟨⟨hcame, hroute⟩, -⟩ := hfound b hb
    cases ht with
    | read hnull hcls =>
      exact Reader.replays hnull (hcls.trans hcame.symm) (hroute.foundFor hgood) hroute.answers
  | write order target key v =>
    apply (Resolver.found_firstWriter hI _ target key v).map
    intro found hfound
    refine Option.forall_mem_map.2 fun b hb t ht hown => ?_
    obtain ⟨⟨hcame, hroute⟩, -⟩ := hfound b hb
    cases ht with
    | write hnull hcls htype =>
      have hbound := hroute.boundTo hgood
      have hchanges := hroute.changes
      rw [← htype] at hbound hchanges
      exact Writer.replays hnull (hcls.trans hcame.symm) hbound hchanges hroute.answers hown
  | call target name args =>
    apply (Engine.found_findCaller hI target name args).map
    intro found hfound
    refine Option.forall_mem_map.2 fun b hb t ht _ => ?_
    obtain ⟨hcame, -⟩ := hfound b hb
    cases ht with
    | call hnull hcls htypes =>
      exact Caller.replays hnull (hcls.trans hcame.cls.symm) hcame.signature (hcame.gives.isGood hgood) htypes
  | callOn c name args =>
    apply (Engine.found_findCallerOn hI name args).map
    intro found hfound
    refine Option.forall_mem_map.2 fun b hb t ht _ => ?_
    obtain ⟨hcame, -⟩ := hfound b hb
    cases ht with
    | callOn hnull hcls htypes =>
      exact Caller.replays hnull (hcls.trans hcame.cls.symm) hcame.signature (hcame.gives.isGood hgood) htypes
  | create name args =>
    apply (Engine.found_findCreator hI name args).map
    intro found hfound
    refine Option.forall_mem_map.2 fun b hb t ht _ => ?_
    obtain ⟨⟨hsignature, k, hk, hanswer⟩, -⟩ := hfound b hb
    cases ht with
    | create htypes => exact Creator.replays hsignature (hmakers hk hanswer) htypes

namespace Session

/-- **What an engine finds is done again**: take a binding of any sort that an engine finds in any run, and try it with
an instance of the class, the very property, and a value or arguments of the types that it was looked for with. It
comes to an access of its member, and all that the member is handed fits. The access is done, and answers or fails as
the member does, but for a field that refuses; and a field is tried only with null or a value of its own class. -/
theorem replays_found (policy : Nat → Policy) (strategy : Nat → Strategy) (heap : Heap) (es : List Event) (i : Nat)
    (d : Discovery) (b : Binding) :
    let s := (start policy strategy heap).run es
    (d.search (s.engines i) s.registry (s.memory i)).1 = .ok (some b) →
      ∀ t, d.Repeats t → b.TakesOwn t →
        ∃ a, b.replay? t = some a ∧ a.member? = b.member? ∧ a.Fits s.registry ∧
          ∀ h, b.tryInvoke t h = ((a.run h).1.map .done, (a.run h).2) ∨
            ∃ f what, b.member? = some (.field f) ∧ (a.host h).1 = .error (.fault (.illegalAccess what)) := by
  intro s hfound t hrepeats hown
  obtain ⟨-, -, hgrounded, hmakers⟩ := invariant_makersFit.run (s := start policy strategy heap) (i := i)
    ⟨Registry.proper_initial, .refl _, Introspector.grounded_new _ _, fun _ _ h => by cases h⟩ es
  have hkept : Introspector.KeptByQueries s.registry fun k => k.Grounded s.registry ∧ k.MakersFit s.registry :=
    Introspector.keptByQueries_of_touch fun t h =>
      ⟨Introspector.grounded_touch h.1 t, Introspector.makersFit_touch h.2 t⟩
  obtain ⟨a, ha, hmember, hfits⟩ := (Discovery.replays_search hkept
    (fun h hm => forall₂_of_callCost (h.1.findMethod hm)) (fun h hx => h.2.findConstructor hx) (s.engines i) d
    (s.memory i) ⟨hgrounded, hmakers⟩).2.1 _ hfound b rfl t hrepeats hown
  refine ⟨a, ha, hmember, hfits, fun h => ?_⟩
  rw [Binding.tryInvoke_eq, ha, ← hmember]
  exact a.attempt_cases h

/-- A method that was found for a text takes another one, on another instance. -/
theorem replays_found_bag :
    let d := Discovery.write (.style .dot) aBag (.string "a") (.string "x")
    let t := Trial.write (.object ⟨7, ⟨19⟩⟩) (.string "a") (.string "y")
    (d.search (bagged.engines 0) bagged.registry (bagged.memory 0)).1 = .ok (some (.writer bagWriter)) ∧
      d.Repeats t ∧ (Binding.writer bagWriter).TakesOwn t ∧
      ∃ a, (Binding.writer bagWriter).replay? t = some a ∧ a.arguments = [.string "a", .string "y"] ∧
        a.Fits bagged.registry ∧
        ∀ h, (Binding.writer bagWriter).tryInvoke t h = ((a.run h).1.map .done, (a.run h).2) := by
  intro d t
  have hfound : (d.search (bagged.engines 0) bagged.registry (bagged.memory 0)).1 = .ok (some (.writer bagWriter)) :=
    rfl
  have hrepeats : d.Repeats t := .write rfl rfl rfl
  have hown : (Binding.writer bagWriter).TakesOwn t := trivial
  obtain ⟨a, ha, -, hfits, hruns⟩ := replays_found (fun _ => .unrestricted) (fun _ => .pojo) {}
    [.change (.register bag)] 0 d (.writer bagWriter) hfound t hrepeats hown
  cases ha
  refine ⟨hfound, hrepeats, hown, _, rfl, rfl, hfits, fun h => ?_⟩
  -- a method does not refuse
  rcases hruns h with hdone | ⟨f, what, hf, -⟩
  · exact hdone
  · cases hf

end Session

end MemberAccess
