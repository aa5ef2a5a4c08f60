import MemberAccess.Proofs.Session

/-!
# Retirement and sites

A search never finds a binding of a retired class, and no site takes one up. But a binding that a site
took up before is tried again without a look at the registry: it is the one way in which a member of a
retired class still runs.

* `Plan.Faithful`: a plan only finds bindings of living classes, and its accesses run the members of its
  bindings.
* `Site.ran_dead_iff`: when an evaluation runs a member of a retired class.
* `Session.ran_retired_iff`: the same for every evaluation after a retirement.
-/

namespace MemberAccess

/-- The plan finds only bindings of living classes, and runs their members and no others. -/
structure Plan.Faithful {β : Type} (p : Plan β) (member? : β → Option Member) (r : Registry) : Prop where
  found : ∀ {k b}, (p.find k).1 = .ok (some b) → r.Living (member? b)
  access : ∀ b, (p.access b).member? = member? b
  replay : ∀ {b a}, p.replay? b = some a → a.member? = member? b

namespace Registry

/-- A member of a retired class. -/
theorem Living.declaring_ne {r : Registry} {D : ClassId} (hD : r.isAlive D = false) {member? : Option Member}
    (h : r.Living member?) : member?.map (·.declaring) ≠ some D := by
  intro hdecl
  obtain ⟨m, hm, rfl⟩ := Option.map_eq_some_iff.1 hdecl
  rw [h m hm] at hD
  cases hD

end Registry

section Plans

variable (r : Registry)

theorem Engine.faithful_reading (e : Engine) (style : AccessStyle) (target key : Value) :
    (e.reading r style target key).Faithful (·.route.member?) r where
  found {k b} h := by
    have := (Resolver.found_firstReader (Introspector.keptByQueries_true r) _ target key k trivial).2.1 _ h
    exact Reader.isAlive_iff.1 (this b rfl).2
  access b := b.route.access_member? target
  replay h := ReadRoute.replay?_member? (Reader.of_replay? h).2.2

theorem Engine.faithful_writing (e : Engine) (style : AccessStyle) (target key v : Value) :
    (e.writing r style target key v).Faithful (·.route.member?) r where
  found {k b} h := by
    have := (Resolver.found_firstWriter (Introspector.keptByQueries_true r) _ target key v k trivial).2.1 _ h
    exact Writer.isAlive_iff.1 (this b rfl).2
  access b := b.route.access_member? target v
  replay h := WriteRoute.replay?_member? (Writer.of_replay? h).2.2

theorem Engine.faithful_calling (target : Value) (name : String) (args : List Value) :
    (calling r target name args).Faithful (fun b => some (.method b.method)) r where
  found {k b} h := by
    have := (Engine.found_findCaller (Introspector.keptByQueries_true r) target name args k trivial).2.1 _ h
    intro m hm
    cases hm
    exact (this b rfl).2
  access b := rfl
  replay {b a} h := by
    unfold Engine.calling Caller.replay? at h
    simp only at h
    split at h
    · cases h
      rfl
    · cases h

end Plans

section Sites

variable {β : Type} {s : Site β} {p : Plan β} {member? : β → Option Member} {r : Registry}

/-- **When an evaluation runs a member of a retired class**: the site remembers a binding of that class, and
it applies. -/
theorem Site.ran_dead_iff (hp : p.Faithful member? r) {D : ClassId} (hD : r.isAlive D = false) (w : World) :
    (∃ a ∈ s.ran p w, a.declaring? = some D) ↔
      ∃ b, s.cached = some b ∧ (member? b).map (·.declaring) = some D ∧ (p.replay? b).isSome = true := by
  -- what a search finds is alive
  have hruns : ∀ a ∈ p.runs w, a.declaring? ≠ some D := by
    intro a ha
    unfold Plan.runs at ha
    split at ha
    · rename_i b hb
      rw [List.mem_singleton.1 ha]
      unfold Access.declaring?
      rw [hp.access]
      exact (hp.found hb).declaring_ne hD
    · cases ha
  constructor
  · rintro ⟨a, ha, hdecl⟩
    unfold ran at ha
    cases hreplay : s.cached.bind p.replay? with
    | none =>
      rw [hreplay] at ha
      exact absurd hdecl (hruns a ha)
    | some a' =>
      rw [hreplay] at ha
      obtain ⟨b, hb, ha'⟩ := Option.bind_eq_some_iff.1 hreplay
      -- beside the replayed access only what a search finds is run
      have : a = a' := by
        simp only at ha
        split at ha
        · rcases List.mem_cons.1 ha with ha | ha
          · exact ha
          · exact absurd hdecl (hruns a ha)
        · exact List.mem_singleton.1 ha
      subst this
      unfold Access.declaring? at hdecl
      rw [hp.replay ha'] at hdecl
      exact ⟨b, hb, hdecl, by rw [ha']; rfl⟩
  · rintro ⟨b, hb, hdecl, hsome⟩
    obtain ⟨a, ha⟩ := Option.isSome_iff_exists.1 hsome
    refine ⟨a, ?_, ?_⟩
    · -- the access is run first, whether it answers or refuses
      unfold ran
      rw [hb, Option.bind_some, ha]
      simp only
      split
      · exact List.mem_cons_self
      · exact List.mem_cons_self
    · unfold Access.declaring?
      rw [hp.replay ha, hdecl]

end Sites

namespace Session

/-- The access for which an evaluation tries a binding that its site remembers. -/
def Use.replay? : Use → Binding → Option Access
  | read _ _ target key, .reader b => b.replay? target key
  | write _ _ target key v, .writer b => b.replay? target key v
  | call _ target name args, .caller b => b.replay? target name args
  | _, _ => none

/-- The accesses that an evaluation runs. -/
def ran (s : Session) (i : Nat) : Use → List Access
  | .read n style target key => (s.readSites n).ran (s.readPlan i style target key) (s.world i)
  | .write n style target key v => (s.writeSites n).ran (s.writePlan i style target key v) (s.world i)
  | .call n target name args => (s.callSites n).ran (s.callPlan target name args) (s.world i)

/-- **An evaluation does nothing to the heap but run its accesses.** -/
theorem use_heap (s : Session) (i : Nat) (u : Use) : (s.use i u).2.heap = Access.after s.heap (s.ran i u) := by
  cases u with
  | read n style target key => exact Site.evaluate_heap _ _ (s.world i)
  | write n style target key v => exact Site.evaluate_heap _ _ (s.world i)
  | call n target name args => exact Site.evaluate_heap _ _ (s.world i)

variable {s : Session} {D : ClassId} {b : Binding}

/-- When an evaluation runs a member of a class that is retired. -/
theorem ran_dead_iff (hD : s.registry.isAlive D = false) (i : Nat) (u : Use) :
    (∃ a ∈ s.ran i u, a.declaring? = some D) ↔
      ∃ b, s.cached u.place = some b ∧ b.declaring? = some D ∧ (u.replay? b).isSome = true := by
  cases u with
  | read n style target key =>
    have hiff := Site.ran_dead_iff (s := s.readSites n)
      (Engine.faithful_reading s.registry (s.engines i) style target key) hD (s.world i)
    simp only [Use.place, cached, Option.map_eq_some_iff, exists_exists_and_eq_and]
    exact hiff
  | write n style target key v =>
    have hiff := Site.ran_dead_iff (s := s.writeSites n)
      (Engine.faithful_writing s.registry (s.engines i) style target key v) hD (s.world i)
    simp only [Use.place, cached, Option.map_eq_some_iff, exists_exists_and_eq_and]
    exact hiff
  | call n target name args =>
    have hiff := Site.ran_dead_iff (s := s.callSites n)
      (Engine.faithful_calling s.registry target name args) hD (s.world i)
    simp only [Use.place, cached, Option.map_eq_some_iff, exists_exists_and_eq_and]
    exact hiff

/-- **A binding of a retired class that a site remembers** it has remembered all along. -/
theorem cached_run (hD : s.registry.isAlive D = false) (hb : b.declaring? = some D) {p : Place}
    (es : List Event) (h : (s.run es).cached p = some b) : s.cached p = some b := by
  induction es generalizing s with
  | nil => exact h
  | cons e rest ih =>
    -- the class is still retired after the event, so the binding was there right after it
    rcases cached_step e (ih ((s.growsTo_step e).dead hD) h) with hc | ⟨j, u, -, -, htaken⟩
    · exact hc
    · -- a search finds no binding of a retired class
      have halive := (Discovery.ensures_search (Introspector.keptByQueries_true s.registry) (s.engines j) u.discovery
        (s.memory j) trivial).2.1 _ htaken.found b rfl
      exact absurd hb (halive.2.declaring_ne hD)

/-- **When a member of a retired class still runs**: after a class has been retired, in whatever way the
session goes on, an evaluation runs one of its members exactly if its site remembers, from before the
retirement, a binding of that class that applies to the evaluation. -/
theorem ran_retired_iff (s : Session) {D : ClassId} (h : (s.registry.retire D).1 = true) (es : List Event)
    (i : Nat) (u : Use) :
    let s' := (s.step (.change (.retire D))).run es
    (∃ a ∈ s'.ran i u, a.declaring? = some D) ↔
      ∃ b, s.cached u.place = some b ∧ s'.cached u.place = some b ∧ b.declaring? = some D ∧
        (u.replay? b).isSome = true := by
  intro s'
  -- the class is dead right after the retirement, and stays so in whatever follows
  have hdead : (s.step (.change (.retire D))).registry.isAlive D = false := by
    simp only [step, Registry.apply]
    rcases s.registry.retire_cases D with ⟨-, -, e⟩ | e <;> rw [e] at h ⊢
    · simp [Registry.isAlive]
    · cases h
  rw [ran_dead_iff ((growsTo_run _ es).dead hdead)]
  constructor
  · rintro ⟨b, hb, hdecl, hreplay⟩
    -- the retirement itself changes no site
    have hbefore := cached_run hdead hdecl es hb
    refine ⟨b, ?_, hb, hdecl, hreplay⟩
    cases hp : u.place <;> rw [hp] at hbefore <;> exact hbefore
  · rintro ⟨b, -, hb, hdecl, hreplay⟩
    exact ⟨b, hb, hdecl, hreplay⟩

/-- Asking a boolean for its value, at the first site for calls. -/
def unboxing : Use := .call 0 (.bool true) "booleanValue" []

/-- A session that has asked a boolean for its value once. -/
def unboxed : Session := (start (fun _ => .unrestricted) (fun _ => .pojo) {}).run [.use 0 unboxing]

theorem ran_retired_iff_unboxing :
    (unboxed.registry.retire .boolean).1 = true ∧
      ((∃ a ∈ ((unboxed.step (.change (.retire .boolean))).run []).ran 0 unboxing,
          a.declaring? = some .boolean) ↔
        ∃ b, unboxed.cached unboxing.place = some b ∧
          ((unboxed.step (.change (.retire .boolean))).run []).cached unboxing.place = some b ∧
          b.declaring? = some .boolean ∧ (unboxing.replay? b).isSome = true) :=
  ⟨by decide +kernel, ran_retired_iff unboxed (by decide +kernel) [] 0 unboxing⟩

/-- Retirement does not reach the sites: the class of booleans has been retired, and the site runs its
method all the same. -/
theorem not_silent_after_retirement :
    ¬ ∀ (policy : Nat → Policy) (strategy : Nat → Strategy) (heap : Heap) (es es' : List Event) (D : ClassId)
        (i : Nat) (u : Use),
      let s := (start policy strategy heap).run es
      (s.registry.retire D).1 = true →
        ∀ a ∈ ((s.step (.change (.retire D))).run es').ran i u, a.declaring? ≠ some D := by
  intro h
  have hsilent := h (fun _ => .unrestricted) (fun _ => .pojo) {} [.use 0 unboxing] [] .boolean 0 unboxing
    (by decide +kernel)
  have hruns : ¬ ∀ a ∈ ((unboxed.step (.change (.retire .boolean))).run []).ran 0 unboxing,
      a.declaring? ≠ some .boolean := by decide +kernel
  exact hruns hsilent

end Session

end MemberAccess
