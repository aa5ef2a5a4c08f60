import MemberAccess.Proofs.Binding.Property
import MemberAccess.Proofs.Binding.Recurrence
import MemberAccess.Proofs.Session

/-!
# Sites for properties are transparent

An expression reads or writes one property in one style, and it writes values of one type. The binding that
the site of an expression remembers is **settled**: for every instance of its class the engine finds that very
binding, now and later, as long as no class is retired and no map is purged. So a binding that applies makes the
access that a fresh search would lead to. A field may refuse; then the search is made after all, and finds
everything as it was if the refusal has done nothing.

* `FieldDecl.RefusesQuietly`: what is asked of host code.
* `Expression`, `Use.expression?`: the expressions, and the evaluations of one.
* `Settled`, `settled_of_found`: what is found for an expression is settled; `Settled.step`, `Settled.run`: it stays so.
* `Session.property_eq_fresh`: an evaluation at a site for properties answers, and does to the heap, what a
  fresh search and access would.
-/

namespace MemberAccess

variable {r r' : Registry} {b : Binding}

/-! ## Refusals -/

/-- Host code that refuses access to the field has done nothing. It depends on the heap and on nothing else, so
it refuses again when it is tried again. -/
structure FieldDecl.RefusesQuietly (f : FieldDecl) : Prop where
  get : ∀ {target h what}, (f.get target h).1 = .error (.fault (.illegalAccess what)) → (f.get target h).2 = h
  set : ∀ {target v h what}, (f.set target v h).1 = .error (.fault (.illegalAccess what)) →
    (f.set target v h).2 = h

/-- A field that cannot change refuses quietly when it can be read without touching the heap. -/
theorem FieldDecl.refusesQuietly_of_isFinal {f : FieldDecl} (hfinal : f.isFinal = true)
    (hread : ∀ target h, (f.get target h).2 = h) : f.RefusesQuietly where
  get _ := hread _ _
  set _ := by
    unfold isFinal modifiers at hfinal
    unfold FieldDecl.set
    cases hstorage : f.storage <;> rw [hstorage] at hfinal
    case cell => cases hfinal
    all_goals rfl

namespace Registry

/-- Every field of every registered class refuses quietly. -/
def RefusesQuietly (r : Registry) : Prop := ∀ d ∈ r.classes, ∀ f ∈ d.fields, f.RefusesQuietly

/-- The fields of the core classes are constants. -/
theorem refusesQuietly_initial : initial.RefusesQuietly := by
  have hconstant : ∀ d ∈ initial.classes, ∀ f ∈ d.fields, f.isStatic = true ∧ f.isFinal = true := by decide
  intro d hd f hf
  obtain ⟨hstatic, hfinal⟩ := hconstant d hd f hf
  refine FieldDecl.refusesQuietly_of_isFinal hfinal fun target h => ?_
  -- a static field is read without host code
  unfold FieldDecl.isStatic FieldDecl.modifiers at hstatic
  unfold FieldDecl.get
  cases hstorage : f.storage <;> rw [hstorage] at hstatic
  case cell | readOnly => cases hstatic
  all_goals rfl

theorem RefusesQuietly.push (h : r.RefusesQuietly) {make : ClassId → ClassDef}
    (hm : ∀ f ∈ (make r.next).fields, f.RefusesQuietly) : (r.push make).RefusesQuietly := by
  intro d hd f hf
  rcases List.mem_append.1 hd with hd | hd
  · exact h d hd f hf
  · rw [List.mem_singleton.1 hd] at hf
    exact hm f hf

/-- **The fields of a registry refuse quietly** as long as those of every class that is registered do. -/
theorem RefusesQuietly.apply (h : r.RefusesQuietly) {c : Change}
    (hc : ∀ d, c = .register d → ∀ f ∈ d.fields, f.RefusesQuietly) : (r.apply c).RefusesQuietly := by
  rcases r.apply_cases c with e | ⟨d, hd, -, -, -, e⟩ | ⟨t, -, -, e⟩ | ⟨D, -, -, -, e⟩ <;> rw [e]
  · exact h
  · apply h.push
    intro f hf
    obtain ⟨j, hj, rfl⟩ := List.mem_mapIdx.1 hf
    exact hc d hd _ (List.getElem_mem hj)
  · exact h.push fun f hf => by cases hf
  · exact h

end Registry

/-- An access that counts as not tried has left the heap alone. -/
theorem Access.heap_of_stale {a : Access} {h : Heap} (hquiet : ∀ f, a.member? = some (.field f) → f.RefusesQuietly)
    (hstale : (a.attempt h).1 = .ok .stale) : (a.host h).2 = h := by
  obtain ⟨hmay, what, hrefused⟩ := refused_of_stale hstale
  cases a with
  | readField f target => exact (hquiet f rfl).get hrefused
  | writeField f target v =>
    simp only [host] at hrefused ⊢
    rw [bind_apply] at hrefused ⊢
    cases hset : f.set target v h with | mk answer h' =>
    rw [hset] at hrefused
    cases answer with
    | ok => cases hrefused
    | error halt =>
      -- what is done after the write is not done when the write refuses
      cases hrefused
      have hsame := (hquiet f rfl).set (congrArg Prod.fst hset)
      rw [hset] at hsame
      exact hsame
  | call | store | readElement | writeElement | create => cases hmay

namespace Session

/-! ## Expressions -/

/-- What is fixed where a script reads or writes a property: the style and the property, and for a write the
type of the values. -/
inductive Expression where
  | read (style : AccessStyle) (key : Value)
  | write (style : AccessStyle) (key : Value) (type : Ty)

/-- The expression that is evaluated. -/
def Use.expression? : Use → Option Expression
  | read _ style _ key => some (.read style key)
  | write _ style _ key v => some (.write style key v.type)
  | call .. => none

def Use.target : Use → Value
  | read _ _ target _ => target
  | write _ _ target _ _ => target
  | call _ target _ _ => target

variable {x : Expression} {u u' : Use} {e e' : Engine}

/-- Null has no properties. -/
theorem Use.isNull_of_found {k : Introspector} (hx : u.expression? = some x)
    (h : (u.discovery.search e r k).1 = .ok (some b)) : u.target.isNull = false := by
  cases hnull : u.target.isNull with
  | false => rfl
  | true =>
    cases u with
    | read n style target key =>
      obtain ⟨b, hb, -⟩ := Search.found_of_map h
      change target.isNull = true at hnull
      unfold Resolver.firstReader at hb
      rw [if_pos hnull] at hb
      cases hb
    | write n style target key v =>
      obtain ⟨b, hb, -⟩ := Search.found_of_map h
      change target.isNull = true at hnull
      unfold Resolver.firstWriter at hb
      rw [if_pos hnull] at hb
      cases hb
    | call => cases hx

/-- **What is found for an expression is found again** for every target of the class. -/
theorem Use.recurs_search (hp : r.Proper) (hinit : Registry.initial.GrowsTo r) (hr : r.SteadyTo r')
    (hx : u.expression? = some x) (hx' : u'.expression? = some x) (hc : u.target.cls.index < r.size)
    (hcls : u'.target.cls = u.target.cls) (hnull : u'.target.isNull = u.target.isNull)
    (hstrategy : e'.strategy = e.strategy) :
    Search.Recurs r (u.discovery.search e r) (u'.discovery.search e' r') fun found => found.isSome = true := by
  cases u with
  | call => cases hx
  | read n style target key =>
    cases hx
    cases u' with
    | write | call => cases hx'
    | read n' style' target' key' =>
      cases hx'
      simp only [discovery, Discovery.search, SearchOrder.of, Engine.resolvers, hstrategy]
      refine (Resolver.recurs_firstReader hp hinit hr hc hcls hnull e.strategy style key).map fun found h => ?_
      simpa using h
  | write n style target key v =>
    cases u' with
    | read => cases hx; cases hx'
    | call => cases hx'
    | write n' style' target' key' v' =>
      have hsame := hx'.trans hx.symm
      simp only [expression?, Option.some.injEq, Expression.write.injEq] at hsame
      obtain ⟨rfl, rfl, hv⟩ := hsame
      simp only [discovery, Discovery.search, SearchOrder.of, Engine.resolvers, hstrategy]
      refine (Resolver.recurs_firstWriter hp hinit hr hc hcls hnull e.strategy style' key' hv).map fun found h => ?_
      simpa using h

/-! ## Settled bindings -/

/-- The engine finds the binding for the expression on every instance of its class, and so does every later
engine that recalls what this one knows. If it goes through a field, that class declares it. -/
structure Settled (x : Expression) (r : Registry) (e : Engine) (b : Binding) : Prop where
  found : ∀ {r' : Registry} {e' : Engine} {u : Use}, r.SteadyTo r' → e'.strategy = e.strategy →
    e'.introspector.InOrder → e'.introspector.Recalls r e.introspector → u.expression? = some x →
    u.target.isNull = false → u.target.cls = b.cls → (u.discovery.search e' r' e'.introspector).1 = .ok (some b)
  field : ∀ {f}, b.member? = some (.field f) → ∃ d, r.class? b.cls = some d ∧ f ∈ d.fields

theorem Settled.later (h : Settled x r e b) (hr : r.SteadyTo r') (hstrategy : e'.strategy = e.strategy)
    (hrecalls : e'.introspector.Recalls r e.introspector) : Settled x r' e' b where
  found hr' hstrategy' hk hrecalls' :=
    h.found (hr.trans hr') (hstrategy'.trans hstrategy) hk ((Introspector.Recalls.steady hr hrecalls').trans hrecalls)
  field hf := by
    obtain ⟨d, hd, hmem⟩ := h.field hf
    exact ⟨d, hr.growsTo.class?_some hd, hmem⟩

/-- Null, which passes for an instance of the root class, has no fields there. -/
theorem Settled.isNull_of_cls (hinit : Registry.initial.GrowsTo r) (h : Settled x r e b) {target : Value}
    (hcls : target.cls = b.cls) (hfield : target.isNull = true → ∃ f, b.member? = some (.field f)) :
    target.isNull = false := by
  cases hnull : target.isNull with
  | false => rfl
  | true =>
    obtain ⟨f, hf⟩ := hfield hnull
    obtain ⟨d, hd, hmem⟩ := h.field hf
    have hroot : target.cls = .object := by cases target <;> first | rfl | cases hnull
    rw [← hcls, hroot] at hd
    rw [Registry.fields_object hinit hd] at hmem
    cases hmem

variable {s : Session} {i : Nat}

/-- **What is found for an expression is settled.** -/
theorem settled_of_found (hp : s.registry.Proper) (hinit : Registry.initial.GrowsTo s.registry)
    (hk : (s.memory i).InOrder) (hgrounded : (s.memory i).Grounded s.registry) (hx : u.expression? = some x)
    (h : (u.discovery.search (s.engines i) s.registry (s.memory i)).1 = .ok (some b)) :
    Settled x s.registry { s.engines i with
      introspector := (u.discovery.search (s.engines i) s.registry (s.memory i)).2 } b := by
  -- the class of the target is registered, since something was found on it
  obtain ⟨hfound, -⟩ := (Discovery.ensures_search (Introspector.keptByQueries_grounded s.registry) (s.engines i)
    u.discovery (s.memory i) ⟨hk, hgrounded⟩).2.1 _ h b rfl
  obtain ⟨hcls, hinto⟩ : b.cls = u.target.cls ∧
      LeadsInto (fun k => k.InOrder ∧ k.Grounded s.registry) s.registry u.target.cls b.member? := by
    cases u with
    | call => cases hx
    | read | write =>
      cases hfound with
      | member on cls into =>
        cases on
        exact ⟨cls, into⟩
  constructor
  · intro r' e' u' hr hstrategy hk' hrecalls hx' hnull' hcls'
    have hnull : u'.target.isNull = u.target.isNull := hnull'.trans (Use.isNull_of_found hx h).symm
    exact (Use.recurs_search hp hinit hr hx hx' hinto.registered (hcls'.trans hcls) hnull hstrategy).again hk hk'
      hrecalls h rfl
  · intro f hf
    rw [hf] at hinto
    rw [hcls]
    cases hinto with
    | field hk hfield => exact hk.2.findField hk.1 hfield

/-- **What the site of an expression takes up** is settled after the evaluation. -/
theorem TakesUp.settled (hp : s.registry.Proper) (hinit : Registry.initial.GrowsTo s.registry)
    (hk : (s.memory i).InOrder) (hgrounded : (s.memory i).Grounded s.registry) (hx : u.expression? = some x)
    (h : s.TakesUp i u b) : Settled x (s.step (.use i u)).registry ((s.step (.use i u)).engines i) b := by
  have hsettled := settled_of_found hp hinit hk hgrounded hx h.found
  rw [← h.engine, ← s.use_registry i u] at hsettled
  exact hsettled

/-- What may happen while what an engine knows is kept: no class is retired, and no map of the engine is purged. -/
def Event.Keeps (i : Nat) : Event → Prop
  | change (.retire _) => False
  | touch j (.purge _) => j ≠ i
  | _ => True

/-- **A binding stays settled.** -/
theorem Settled.step (h : Settled x s.registry (s.engines i) b) (hk : (s.memory i).InOrder) {e : Event}
    (he : e.Keeps i) : Settled x (s.step e).registry ((s.step e).engines i) b := by
  obtain ⟨hr, hrecalls⟩ := recalls_step hk (e := e) (by rintro D rfl; exact he) (by rintro c rfl; exact he rfl)
  exact h.later hr (s.strategy_step i e) hrecalls

theorem Settled.run (h : Settled x s.registry (s.engines i) b) (hk : (s.memory i).InOrder) {es : List Event}
    (hes : ∀ e ∈ es, e.Keeps i) : Settled x (s.run es).registry ((s.run es).engines i) b := by
  induction es generalizing s with
  | nil => exact h
  | cons e rest ih =>
    exact ih (h.step hk (hes e List.mem_cons_self)) (invariant_inOrder.step hk e)
      fun e he => hes e (List.mem_cons_of_mem _ he)

/-! ## Evaluations -/

/-- What may happen while the site of an expression is used through one engine: no class is retired, no map of
the engine is purged, and the site is used for nothing but the expression and through no other engine. -/
def Event.AllowedFor (i : Nat) (p : Place) (x : Expression) : Event → Prop
  | change (.retire _) => False
  | touch j (.purge _) => j ≠ i
  | use j u => u.place = p → j = i ∧ u.expression? = some x
  | _ => True

/-- A session in which what the site of an expression remembers is settled in an engine. -/
structure Settles (s : Session) (i : Nat) (p : Place) (x : Expression) : Prop where
  inOrder : (s.memory i).InOrder
  grounded : s.registry.Proper ∧ Registry.initial.GrowsTo s.registry ∧ (s.memory i).Grounded s.registry
  settled : ∀ b, s.cached p = some b → Settled x s.registry (s.engines i) b

variable {p : Place}

theorem Event.AllowedFor.keeps {e : Event} (he : e.AllowedFor i p x) : e.Keeps i := by
  cases e with
  | change c =>
    cases c with
    | retire D => exact he
    | _ => trivial
  | touch j t =>
    cases t with
    | purge c => exact he
    | _ => trivial
  | host | find | use | clear => trivial

theorem Settles.step (h : s.Settles i p x) {e : Event} (he : e.AllowedFor i p x) : (s.step e).Settles i p x where
  inOrder := invariant_inOrder.step h.inOrder e
  grounded := invariant_grounded.step h.grounded e
  settled b hb := by
    rcases cached_step e hb with hc | ⟨j, u, rfl, hplace, htaken⟩
    · exact (h.settled b hc).step h.inOrder he.keeps
    · obtain ⟨rfl, hx⟩ := he hplace
      obtain ⟨hp, hinit, hgrounded⟩ := h.grounded
      exact htaken.settled hp hinit h.inOrder hgrounded hx

theorem Settles.run (h : s.Settles i p x) {es : List Event} (hes : ∀ e ∈ es, e.AllowedFor i p x) :
    (s.run es).Settles i p x := by
  induction es generalizing s with
  | nil => exact h
  | cons e rest ih => exact ih (h.step (hes e List.mem_cons_self)) fun e he => hes e (List.mem_cons_of_mem _ he)

/-- What a settled binding runs does nothing when it refuses. -/
theorem Settled.heap_of_stale (h : Settled x r e b) (hquiet : r.RefusesQuietly) {a : Access} {heap : Heap}
    (ha : a.member? = b.member?) (hstale : (a.attempt heap).1 = .ok .stale) : (a.host heap).2 = heap := by
  refine Access.heap_of_stale (fun f hf => ?_) hstale
  obtain ⟨d, hd, hmem⟩ := h.field (ha.symm.trans hf)
  exact hquiet d (Registry.mem_classes_iff.2 ⟨_, hd⟩) f hmem

/-- An evaluation for which nothing is remembered: its answer, and the heap afterwards. -/
def fresh (s : Session) (i : Nat) : Use → Except AccessError (Option Value) × Heap
  | .read _ style target key =>
    let (answer, w) := (s.readPlan i style target key).fresh (s.world i)
    (answer.map (·.map (·.2)), w.heap)
  | .write _ style target key v =>
    let (answer, w) := (s.writePlan i style target key v).fresh (s.world i)
    (answer.map (·.map (·.2)), w.heap)
  | .call _ target name args =>
    let (answer, w) := (s.callPlan target name args).fresh (s.world i)
    (answer.map (·.map (·.2)), w.heap)

/-- **An evaluation at a site whose binding is settled** is a fresh search and access, when the binding applies
to nothing but instances of its class, and makes the access that it was found for. -/
theorem Settles.evaluate_eq_fresh {β : Type} {u : Use} (h : s.Settles i u.place x) (site : Site β) (plan : Plan β)
    (wrap : β → Binding) (hquiet : s.registry.RefusesQuietly) (hx : u.expression? = some x)
    (hcached : s.cached u.place = site.cached.map wrap) (hwrap : Function.Injective wrap)
    (hsearch : u.discovery.search (s.engines i) s.registry = (do pure ((← plan.find).map wrap)))
    (hreplay : ∀ {b a}, plan.replay? b = some a → u.target.cls = (wrap b).cls ∧
      (u.target.isNull = true → ∃ f, (wrap b).member? = some (.field f)) ∧ a.member? = (wrap b).member? ∧
      (plan.found (s.world i) = .ok (some b) → plan.access b = a)) :
    (site.evaluate plan (s.world i)).1 = (plan.fresh (s.world i)).1.map (·.map (·.2)) ∧
      (site.evaluate plan (s.world i)).2.2.heap = (plan.fresh (s.world i)).2.heap := by
  apply Site.evaluate_eq_fresh
  intro b a hb ha
  have hsettled := h.settled (wrap b) (by rw [hcached, hb]; rfl)
  obtain ⟨hcls, hfield, hmember, haccess⟩ := hreplay ha
  refine ⟨⟨b, ?_⟩, hsettled.heap_of_stale hquiet hmember⟩
  -- the search finds the binding that is replayed
  have hnull := hsettled.isNull_of_cls h.grounded.2.1 hcls hfield
  have hfound := hsettled.found (.refl _) rfl h.inOrder (.refl _ _) hx hnull hcls
  rw [hsearch] at hfound
  obtain ⟨b', hb', hsame⟩ := Search.found_of_map hfound
  rw [hwrap hsame] at hb'
  exact ⟨hb', haccess hb'⟩

theorem Settles.use_eq_fresh {u : Use} (h : s.Settles i u.place x) (hquiet : s.registry.RefusesQuietly)
    (hx : u.expression? = some x) :
    (s.use i u).1 = (s.fresh i u).1 ∧ (s.use i u).2.heap = (s.fresh i u).2 := by
  cases u with
  | call => cases hx
  | read n style target key =>
    refine h.evaluate_eq_fresh (s.readSites n) (s.readPlan i style target key) .reader hquiet hx rfl
      (fun _ _ hsame => Binding.reader.inj hsame) rfl fun {b a} ha => ?_
    obtain ⟨hcls, hfamily, hroute⟩ := Reader.of_replay? ha
    refine ⟨hcls, fun hnull => ReadRoute.member?_of_family (hfamily hnull), ReadRoute.replay?_member? hroute, ?_⟩
    intro hfound
    -- what its method is good for does not matter here
    have hbound : b.route.FoundFor (fun _ _ => True) key :=
      (Resolver.foundFor_firstReader (Introspector.keptByQueries_true s.registry) (fun _ _ => trivial) _ target key
        (s.memory i) trivial).2.1 _ hfound b rfl
    exact (ReadRoute.replay?_eq_access hbound.boundTo hroute).symm
  | write n style target key v =>
    refine h.evaluate_eq_fresh (s.writeSites n) (s.writePlan i style target key v) .writer hquiet hx rfl
      (fun _ _ hsame => Binding.writer.inj hsame) rfl fun {b a} ha => ?_
    obtain ⟨hcls, hfamily, hroute⟩ := Writer.of_replay? ha
    refine ⟨hcls, fun hnull => WriteRoute.member?_of_family (hfamily hnull), WriteRoute.replay?_member? hroute, ?_⟩
    intro hfound
    have hbound : b.route.BoundTo (fun _ _ => True) key v.type :=
      (Resolver.boundTo_firstWriter (Introspector.keptByQueries_true s.registry) (fun _ _ => trivial) _ target key v
        (s.memory i) trivial).2.1 _ hfound b rfl
    exact (WriteRoute.replay?_eq_access hbound hroute).symm

/-- **Sites for properties are transparent**: from any state of a session in which the site of an expression
remembers nothing, and for whatever happens from then on, as long as no class is retired, no map of the engine is
purged and fields refuse quietly, an evaluation at the site gives the result, and has the effect on the heap, of
asking the engine at that moment for a binding and using it. -/
theorem property_eq_fresh (policy : Nat → Policy) (strategy : Nat → Strategy) (heap : Heap) (before : List Event)
    (i : Nat) (p : Place) (x : Expression)
    (hempty : ((start policy strategy heap).run before).cached p = none)
    (es : List Event) (hes : ∀ e ∈ es, e.AllowedFor i p x) (u : Use) (hplace : u.place = p)
    (hx : u.expression? = some x) :
    let s := ((start policy strategy heap).run before).run es
    s.registry.RefusesQuietly → (s.use i u).1 = (s.fresh i u).1 ∧ (s.use i u).2.heap = (s.fresh i u).2 := by
  intro s hquiet
  subst hplace
  have hstart : ((start policy strategy heap).run before).Settles i u.place x := by
    refine ⟨invariant_inOrder.run (s := start policy strategy heap) (Introspector.inOrder_new (policy i)) before,
      grounded_run policy strategy heap before i, ?_⟩
    intro b hb
    rw [hempty] at hb
    cases hb
  exact (hstart.run hes).use_eq_fresh hquiet hx

/-- A class with a field that the host shows of one object and refuses of the others. -/
def gate : ClassDecl :=
  (ClassDecl.ofName "t.Gate").finalField "key" .int fun target => Host.ofExcept
    (if target = .object ⟨0, ⟨19⟩⟩ then .ok (.int 7) else .error (.illegalAccess "key"))

/-- Reading that field of the object at an address. -/
def gateKey (address : Nat) : Use := .read 0 .dot (.object ⟨address, ⟨19⟩⟩) (.string "key")

/-- The field has been read where it is shown, and a class has been registered since. -/
def opened : Session :=
  ((start (fun _ => .unrestricted) (fun _ => .pojo) {}).run [.change (.register gate)]).run
    [.use 0 (gateKey 0), .change (.arrayClass .string)]

theorem refusesQuietly_opened : opened.registry.RefusesQuietly := by
  have hgate : ∀ f ∈ gate.fields, f.RefusesQuietly := by
    intro f hf
    rw [List.mem_singleton.1 hf]
    refine FieldDecl.refusesQuietly_of_isFinal rfl fun target h => ?_
    by_cases hshown : target = .object ⟨0, ⟨19⟩⟩ <;> simp only [FieldDecl.get, hshown] <;> rfl
  have hregistry : opened.registry = (Registry.initial.apply (.register gate)).apply (.arrayClass .string) := by
    simp only [opened, Session.run, List.foldl_cons, List.foldl_nil, Session.step, use_registry]
    rfl
  rw [hregistry]
  refine (Registry.refusesQuietly_initial.apply ?_).apply fun d hd => by cases hd
  intro d hd
  cases hd
  exact hgate

/-- Where the field is refused, the site answers as a search does. -/
theorem property_eq_fresh_gate :
    opened.registry.RefusesQuietly ∧ (opened.use 0 (gateKey 1)).1 = (opened.fresh 0 (gateKey 1)).1 ∧
      (opened.use 0 (gateKey 1)).2.heap = (opened.fresh 0 (gateKey 1)).2 := by
  have hfresh := property_eq_fresh (fun _ => .unrestricted) (fun _ => .pojo) {} [.change (.register gate)] 0 (.read 0)
    (.read .dot (.string "key")) rfl [.use 0 (gateKey 0), .change (.arrayClass .string)]
    (by simp [Event.AllowedFor, gateKey, Use.expression?]) (gateKey 1) rfl rfl
  refine ⟨refusesQuietly_opened, ?_⟩
  unfold opened
  exact hfresh refusesQuietly_opened

end Session

end MemberAccess
