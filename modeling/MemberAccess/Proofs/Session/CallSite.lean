import MemberAccess.Proofs.Session

/-!
# Sites for calls are transparent

The caller that a site remembers is **backed**: the memory of the engine holds its method for its
signature. As long as no class is retired and no map is purged, the memory recalls that, and the engine
would find the very same caller again.

* `Caller.Backed`: this, as a relation between a caller and a memory.
* `Backed.findMethod`: a backed caller is the one that is found; `backed_of_findCaller`: one that is found is
  backed; `Backed.later`: it stays so.
* `Session.call_eq_fresh`: an evaluation at a site for calls answers, and does to the heap, what a fresh
  search and call would.
-/

namespace MemberAccess

variable {r r' : Registry} {k k' : Introspector} {b : Caller}

/-- The memory holds the method of a caller for its signature, and both classes are alive. -/
structure Caller.Backed (b : Caller) (r : Registry) (k : Introspector) : Prop where
  kept : ∃ m, Assoc.get? b.cls k.maps = some (some m) ∧ Assoc.get? b.signature m.index = some (.found b.method)
  cls : r.isAlive b.cls = true
  alive : b.isAlive r = true

namespace Caller

/-- **A backed caller is the one that is found.** -/
theorem Backed.findMethod (hk : k.InOrder) (h : b.Backed r k) :
    (k.findMethod r b.cls b.signature).1 = .ok (some b.method) := by
  obtain ⟨m, hm, hfound⟩ := h.kept
  rw [Introspector.findMethod_answer, Introspector.mapOf_of_kept hk h.cls hm]
  simp only [Introspector.answerOf, ClassMap.lookup_of_known hfound]
  rfl

/-- The overload that is found on a class, and the memory afterwards, are those of a method. -/
theorem findCallerOn_apply (r : Registry) (c : ClassId) (name : String) (args : List Value)
    (k : Introspector) :
    Engine.findCallerOn r c name args k =
      ((k.findMethod r c (.ofArgs name args)).1.map fun m =>
        (m.map fun m => (⟨c, m, .ofArgs name args⟩ : Caller)).filter (·.isAlive r),
        (k.findMethod r c (.ofArgs name args)).2) := by
  unfold Engine.findCallerOn search Search.method
  simp only [bind_apply]
  rcases k.findMethod r c (.ofArgs name args) with ⟨e | m, k'⟩ <;> rfl

theorem Backed.findCallerOn (hk : k.InOrder) (h : b.Backed r k) {name : String} {args : List Value}
    (hs : Signature.ofArgs name args = b.signature) :
    (Engine.findCallerOn r b.cls name args k).1 = .ok (some b) := by
  rw [findCallerOn_apply, hs, h.findMethod hk]
  simp only [Except.map, Option.map_some]
  exact congrArg _ (Option.filter_some_pos h.alive)

/-- **A backed caller that applies** is the one that is found, and makes the access that it was found for. -/
theorem Backed.findCaller (hk : k.InOrder) (h : b.Backed r k) {target : Value} {name : String} {args : List Value}
    {a : Access} (ha : b.replay? target name args = some a) :
    (Engine.findCaller r target name args k).1 = .ok (some b) ∧ b.access target args = a := by
  unfold Caller.replay? at ha
  split at ha
  · -- the target, the class and the signature match: this is the question that the caller answers
    rename_i hmatch
    obtain ⟨hnull, hcls, hs⟩ := hmatch
    refine ⟨?_, Option.some.inj ha⟩
    unfold Engine.findCaller
    rw [if_neg (by rw [hnull]; exact Bool.false_ne_true), hcls]
    exact h.findCallerOn hk hs
  · cases ha

theorem backed_of_findCallerOn (hk : k.InOrder) {c : ClassId} {name : String} {args : List Value}
    (h : (Engine.findCallerOn r c name args k).1 = .ok (some b)) :
    b.Backed r (Engine.findCallerOn r c name args k).2 := by
  rw [findCallerOn_apply] at h ⊢
  simp only at h ⊢
  obtain ⟨found, hfound, hb⟩ : ∃ found, (k.findMethod r c (.ofArgs name args)).1 = .ok found ∧
      (found.map fun m => (⟨c, m, .ofArgs name args⟩ : Caller)).filter (·.isAlive r) = some b := by
    cases hf : (k.findMethod r c (.ofArgs name args)).1 with
    | error e => rw [hf] at h; cases h
    | ok found => rw [hf] at h; exact ⟨found, rfl, by simpa [Except.map] using h⟩
  obtain ⟨hb, halive⟩ := Option.filter_eq_some_iff.1 hb
  obtain ⟨x, hx, rfl⟩ := Option.map_eq_some_iff.1 hb
  rw [hx] at hfound
  rcases Introspector.findMethod_cases k r c (.ofArgs name args) with ⟨-, e⟩ | ⟨m, k', hmap, e⟩ <;>
    rw [e] at hfound ⊢
  · cases hfound
  · -- a class that is dead has no map
    have hcls : r.isAlive c = true := by
      cases hdead : r.isAlive c with
      | true => rfl
      | false =>
        have hnone := Introspector.mapOf_dead hk hdead
        rw [hmap] at hnone
        cases hnone
    refine ⟨⟨m.remember r (.ofArgs name args), ?_, ?_⟩, hcls, halive⟩
    · simp only [Assoc.get?_put, if_true]
    · rw [ClassMap.get?_remember_self]
      cases hl : m.lookup r (.ofArgs name args) <;> rw [hl] at hfound <;> cases hfound
      rfl

/-- **A caller that is found is backed** by the memory that it was found with. -/
theorem backed_of_findCaller (hk : k.InOrder) {target : Value} {name : String} {args : List Value}
    (h : (Engine.findCaller r target name args k).1 = .ok (some b)) :
    b.Backed r (Engine.findCaller r target name args k).2 := by
  unfold Engine.findCaller at h ⊢
  split at h
  · cases h
  · rename_i hnull
    rw [if_neg hnull]
    exact backed_of_findCallerOn hk h

/-- **A caller stays backed** by whatever recalls what backs it. -/
theorem Backed.later (h : b.Backed r k) (hr : r.SteadyTo r') (hrecalls : k'.Recalls r k) : b.Backed r' k' where
  kept := by
    obtain ⟨m, hm, hfound⟩ := h.kept
    obtain ⟨kept', hm', hrel⟩ := hrecalls.kept h.cls hm
    cases hrel with
    | some hm'' => exact ⟨_, hm', hm''.known hfound⟩
  cls := by rw [hr.isAlive_eq]; exact h.cls
  alive := by
    unfold isAlive
    rw [hr.isAlive_eq]
    exact h.alive

end Caller

namespace Session

/-- What may happen while a site for calls is used through one engine: no class is retired, no map of the
engine is purged, and the site is not used through another engine. -/
def Event.Allowed (i n : Nat) : Event → Prop
  | change (.retire _) => False
  | touch j (.purge _) => j ≠ i
  | use j (.call m ..) => m = n → j = i
  | _ => True

/-- The memory of an engine is in order, and backs what a site for calls remembers. -/
structure Backs (s : Session) (i n : Nat) : Prop where
  inOrder : (s.memory i).InOrder
  backed : ∀ b, (s.callSites n).cached = some b → b.Backed s.registry (s.memory i)

variable {s : Session} {i n : Nat}

/-- What a site remembered before an event is backed after it. -/
theorem Backs.backed_step (h : s.Backs i n) {e : Event} (he : e.Allowed i n)
    (hb : (s.callSites n).cached = some b) : b.Backed (s.step e).registry ((s.step e).memory i) := by
  obtain ⟨hr, hrecalls⟩ := recalls_step h.inOrder (e := e) (by rintro D rfl; exact he) (by rintro c rfl; exact he rfl)
  exact (h.backed b hb).later hr hrecalls

/-- **What a site for calls takes up** is backed after the evaluation. -/
theorem TakesUp.backed (hk : (s.memory i).InOrder) {target : Value} {name : String} {args : List Value} {b : Caller}
    (h : s.TakesUp i (.call n target name args) (.caller b)) :
    b.Backed (s.step (.use i (.call n target name args))).registry
      ((s.step (.use i (.call n target name args))).memory i) := by
  obtain ⟨b', hfound, hsame⟩ := Search.found_of_map h.found
  cases hsame
  have hmemory : (s.step (.use i (.call n target name args))).memory i =
      (Engine.findCaller s.registry target name args (s.memory i)).2 := by
    unfold memory
    simp only [Session.step, h.engine]
    exact congrArg Prod.snd (Search.map_apply _ _ _)
  rw [hmemory]
  exact Caller.backed_of_findCaller hk hfound

theorem Backs.step (h : s.Backs i n) {e : Event} (he : e.Allowed i n) : (s.step e).Backs i n where
  inOrder := invariant_inOrder.step h.inOrder e
  backed b hb := by
    have hcached : (s.step e).cached (.call n) = some (.caller b) := by simp only [cached, hb, Option.map_some]
    rcases cached_step e hcached with hc | ⟨j, u, rfl, hp, htaken⟩
    · obtain ⟨b', hb', hsame⟩ := Option.map_eq_some_iff.1 hc
      cases hsame
      exact h.backed_step he hb'
    · -- the site takes up what the search has just found
      cases u with
      | read | write => cases hp
      | call m target name args =>
        cases hp
        obtain rfl : j = i := he rfl
        exact htaken.backed h.inOrder

theorem Backs.run (h : s.Backs i n) {es : List Event} (hes : ∀ e ∈ es, e.Allowed i n) : (s.run es).Backs i n := by
  induction es generalizing s with
  | nil => exact h
  | cons e rest ih => exact ih (h.step (hes e List.mem_cons_self)) fun e he => hes e (List.mem_cons_of_mem _ he)

/-- An evaluation at a site that is backed is a fresh search and call. -/
theorem Backs.use_eq_fresh (h : s.Backs i n) (target : Value) (name : String) (args : List Value) :
    let plan := s.callPlan target name args
    (s.use i (.call n target name args)).1 = (plan.fresh (s.world i)).1.map (·.map (·.2)) ∧
      (s.use i (.call n target name args)).2.heap = (plan.fresh (s.world i)).2.heap := by
  apply Site.evaluate_eq_fresh
  intro b a hb ha
  obtain ⟨hfound, haccess⟩ := (h.backed b hb).findCaller h.inOrder ha
  refine ⟨⟨b, hfound, haccess⟩, fun hstale => ?_⟩
  -- a method does not refuse
  subst haccess
  cases (Access.refused_of_stale hstale).1

/-- **Sites for calls are transparent**: from any state of a session in which a site remembers nothing, and
for whatever happens from then on, as long as no class is retired and no map of the engine is purged, an
evaluation at the site gives the result, and has the effect on the heap, of asking the engine at that
moment for the overload and calling it. -/
theorem call_eq_fresh (policy : Nat → Policy) (strategy : Nat → Strategy) (heap : Heap) (before : List Event)
    (i n : Nat) (hempty : (((start policy strategy heap).run before).callSites n).cached = none)
    (es : List Event) (hes : ∀ e ∈ es, e.Allowed i n) (target : Value) (name : String) (args : List Value) :
    let s := ((start policy strategy heap).run before).run es
    let plan := s.callPlan target name args
    (s.use i (.call n target name args)).1 = (plan.fresh (s.world i)).1.map (·.map (·.2)) ∧
      (s.use i (.call n target name args)).2.heap = (plan.fresh (s.world i)).2.heap := by
  have hstart : ((start policy strategy heap).run before).Backs i n := by
    refine ⟨invariant_inOrder.run (s := start policy strategy heap) ?_ before, ?_⟩
    · exact Introspector.inOrder_new (policy i)
    intro b hb
    rw [hempty] at hb
    cases hb
  exact (hstart.run hes).use_eq_fresh target name args

/-- A site that has asked a text for its length, with a class registered since. -/
theorem call_eq_fresh_length :
    let s := ((start (fun _ => .restricted) (fun _ => .pojo) {}).run []).run
      [.use 0 (.call 0 (.string "ab") "length" []), .change (.arrayClass .string)]
    let plan := s.callPlan (.string "c") "length" []
    (s.use 0 (.call 0 (.string "c") "length" [])).1 = (plan.fresh (s.world 0)).1.map (·.map (·.2)) ∧
      (s.use 0 (.call 0 (.string "c") "length" [])).2.heap = (plan.fresh (s.world 0)).2.heap :=
  call_eq_fresh _ _ _ [] 0 0 rfl _ (by simp [Event.Allowed]) (.string "c") "length" []

end Session

end MemberAccess
