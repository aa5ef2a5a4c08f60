import Mathlib.Logic.Function.Basic
import MemberAccess.Proofs.Evaluation
import MemberAccess.Proofs.Introspection.Grounding
import MemberAccess.Proofs.Introspection.Recall

/-!
# Sessions

A session is everything a host works with at one time: a registry and a heap, any number of engines,
and the sites of its scripts. It runs through **events**, in any order: changes of the registry, host
code, whatever touches the memory of an engine, searches, and evaluations at sites.

* `Session.start`, `Session.step`, `Session.run`.
* `step_cases`: what one event does to the registry and to the memory of an engine.
* `Invariant.run`: a property of a memory that touches and changes keep holds in every run.
* `recalls_step`: purges and retirements apart, a memory recalls what it held before an event.
* `cached_step`: what a site remembers after an event.
-/

namespace MemberAccess

structure Session where
  registry : Registry
  heap : Heap
  engines : Nat → Engine
  readSites : Nat → Site Reader := fun _ => .empty
  writeSites : Nat → Site Writer := fun _ => .empty
  callSites : Nat → Site Caller := fun _ => .empty

namespace Session

/-- A site, by its sort and its number. -/
inductive Place where
  | read (n : Nat)
  | write (n : Nat)
  | call (n : Nat)

/-- An evaluation at a site. -/
inductive Use where
  | read (n : Nat) (style : AccessStyle) (target key : Value)
  | write (n : Nat) (style : AccessStyle) (target key v : Value)
  | call (n : Nat) (target : Value) (name : String) (args : List Value)

inductive Event where
  | change (c : Registry.Change)
  /-- whatever a host does to its arrays and objects -/
  | host (f : Heap → Heap)
  /-- a query, a purge, or a lookup in a map that someone holds -/
  | touch (engine : Nat) (t : Touch)
  | find (engine : Nat) (d : Discovery)
  | use (engine : Nat) (u : Use)
  | clear (p : Place)

/-- The registry of the core classes, engines that have not been used, and empty sites. -/
def start (policy : Nat → Policy) (strategy : Nat → Strategy) (heap : Heap) : Session where
  registry := .initial
  heap := heap
  engines i := .new (policy i) (strategy i)

def memory (s : Session) (i : Nat) : Introspector := (s.engines i).introspector

/-- What an evaluation through an engine works on. -/
def world (s : Session) (i : Nat) : World := ⟨s.engines i, s.heap⟩

/-- The session after an evaluation through an engine. -/
def settle (s : Session) (i : Nat) (w : World) : Session :=
  { s with heap := w.heap, engines := Function.update s.engines i w.engine }

/-- The session with another memory in an engine. -/
def remember (s : Session) (i : Nat) (k : Introspector) : Session :=
  { s with engines := Function.update s.engines i { s.engines i with introspector := k } }

def readPlan (s : Session) (i : Nat) (style : AccessStyle) (target key : Value) : Plan Reader :=
  (s.engines i).reading s.registry style target key

def writePlan (s : Session) (i : Nat) (style : AccessStyle) (target key v : Value) : Plan Writer :=
  (s.engines i).writing s.registry style target key v

def callPlan (s : Session) (target : Value) (name : String) (args : List Value) : Plan Caller :=
  Engine.calling s.registry target name args

/-- An evaluation at a site: its answer, and the session afterwards. -/
def use (s : Session) (i : Nat) : Use → Except AccessError (Option Value) × Session
  | .read n style target key =>
    let (answer, site, w) := (s.readSites n).evaluate (s.readPlan i style target key) (s.world i)
    (answer, { s.settle i w with readSites := Function.update s.readSites n site })
  | .write n style target key v =>
    let (answer, site, w) := (s.writeSites n).evaluate (s.writePlan i style target key v) (s.world i)
    (answer, { s.settle i w with writeSites := Function.update s.writeSites n site })
  | .call n target name args =>
    let (answer, site, w) := (s.callSites n).evaluate (s.callPlan target name args) (s.world i)
    (answer, { s.settle i w with callSites := Function.update s.callSites n site })

def clear (s : Session) : Place → Session
  | .read n => { s with readSites := Function.update s.readSites n (s.readSites n).clear }
  | .write n => { s with writeSites := Function.update s.writeSites n (s.writeSites n).clear }
  | .call n => { s with callSites := Function.update s.callSites n (s.callSites n).clear }

def step (s : Session) : Event → Session
  | .change c => { s with registry := s.registry.apply c }
  | .host f => { s with heap := f s.heap }
  | .touch i t => s.remember i ((s.memory i).touch s.registry t)
  | .find i d => s.remember i (d.search (s.engines i) s.registry (s.memory i)).2
  | .use i u => (s.use i u).2
  | .clear p => s.clear p

def run (s : Session) (es : List Event) : Session := es.foldl step s

theorem run_append (s : Session) (es es' : List Event) : s.run (es ++ es') = (s.run es).run es' := List.foldl_append

theorem run_concat (s : Session) (es : List Event) (e : Event) : s.run (es ++ [e]) = (s.run es).step e :=
  List.foldl_concat step s e es

/-! ## What an event does to a memory -/

section Memory

variable (s : Session) (i j : Nat)

theorem memory_settle (w : World) :
    (s.settle i w).memory j = if j = i then w.engine.introspector else s.memory j := by
  unfold settle memory
  simp only [Function.update_apply]
  split <;> rfl

theorem memory_remember (k : Introspector) :
    (s.remember i k).memory j = if j = i then k else s.memory j := by
  unfold remember memory
  simp only [Function.update_apply]
  split <;> rfl

theorem onlyAsks_readPlan (style : AccessStyle) (target key : Value) :
    Search.OnlyAsks s.registry (s.readPlan i style target key).find :=
  fun _ hI => ⟨_, Resolver.found_firstReader hI _ target key⟩

theorem onlyAsks_writePlan (style : AccessStyle) (target key v : Value) :
    Search.OnlyAsks s.registry (s.writePlan i style target key v).find :=
  fun _ hI => ⟨_, Resolver.found_firstWriter hI _ target key v⟩

theorem onlyAsks_callPlan (target : Value) (name : String) (args : List Value) :
    Search.OnlyAsks s.registry (s.callPlan target name args).find :=
  fun _ hI => ⟨_, Engine.found_findCaller hI target name args⟩

/-- An evaluation at any site only asks the engine that it goes through. -/
theorem memory_evaluate {β : Type} (site : Site β) {p : Plan β} (hp : p.find.OnlyAsks s.registry) :
    ∃ qs, (s.settle i (site.evaluate p (s.world i)).2.2).memory j = (s.memory j).asked s.registry qs := by
  rw [memory_settle]
  split
  · rename_i hij
    subst hij
    -- the engine is as it was, or it has searched
    rcases site.evaluate_state p (s.world j) with ⟨e, -⟩ | ⟨e, -⟩ <;> rw [e]
    · exact ⟨[], rfl⟩
    · exact hp.asked _
  · exact ⟨[], rfl⟩

theorem use_registry (u : Use) : (s.use i u).2.registry = s.registry := by
  cases u <;> rfl

theorem use_memory (u : Use) : ∃ qs, (s.use i u).2.memory j = (s.memory j).asked s.registry qs := by
  cases u with
  | read n style target key =>
    exact s.memory_evaluate i j (s.readSites n) (s.onlyAsks_readPlan i style target key)
  | write n style target key v =>
    exact s.memory_evaluate i j (s.writeSites n) (s.onlyAsks_writePlan i style target key v)
  | call n target name args =>
    exact s.memory_evaluate i j (s.callSites n) (s.onlyAsks_callPlan target name args)

/-- **What an event does to the registry and to a memory**: it changes the registry, or it touches the
memory, or it asks queries. -/
theorem step_cases (e : Event) :
    (∃ c, e = .change c ∧ (s.step e).registry = s.registry.apply c ∧ (s.step e).memory j = s.memory j) ∨
    ((s.step e).registry = s.registry ∧
      ((∃ t, e = .touch j t ∧ (s.step e).memory j = (s.memory j).touch s.registry t) ∨
        ∃ qs, (s.step e).memory j = (s.memory j).asked s.registry qs)) := by
  cases e with
  | change c => exact Or.inl ⟨c, rfl, rfl, rfl⟩
  | host f => exact Or.inr ⟨rfl, Or.inr ⟨[], rfl⟩⟩
  | touch i t =>
    refine Or.inr ⟨rfl, ?_⟩
    simp only [step, memory_remember]
    split
    · rename_i hij
      subst hij
      exact Or.inl ⟨t, rfl, rfl⟩
    · exact Or.inr ⟨[], rfl⟩
  | find i d =>
    refine Or.inr ⟨rfl, Or.inr ?_⟩
    simp only [step, memory_remember]
    split
    · rename_i hij
      subst hij
      exact Search.OnlyAsks.asked (fun _ hI => ⟨_, d.ensures_search hI (s.engines j)⟩) (s.memory j)
    · exact ⟨[], rfl⟩
  | use i u => exact Or.inr ⟨s.use_registry i u, Or.inr (s.use_memory i j u)⟩
  | clear p =>
    refine Or.inr ⟨?_, Or.inr ⟨[], ?_⟩⟩ <;> cases p <;> rfl

/-- An evaluation leaves the strategy of the engine alone. -/
theorem strategy_evaluate {β : Type} (site : Site β) (p : Plan β) :
    ((s.settle i (site.evaluate p (s.world i)).2.2).engines j).strategy = (s.engines j).strategy := by
  unfold settle
  simp only [Function.update_apply]
  split
  · rename_i hij
    subst hij
    rcases site.evaluate_state p (s.world j) with ⟨e, -⟩ | ⟨e, -⟩ <;> rw [e] <;> rfl
  · rfl

/-- **No event changes the strategy of an engine.** -/
theorem strategy_step (e : Event) : ((s.step e).engines j).strategy = (s.engines j).strategy := by
  have hremember : ∀ i k, ((s.remember i k).engines j).strategy = (s.engines j).strategy := by
    intro i k
    unfold remember
    simp only [Function.update_apply]
    split
    · rename_i hij
      rw [hij]
    · rfl
  cases e with
  | change c | host f => rfl
  | touch i t | find i d => exact hremember i _
  | use i u =>
    cases u with
    | read n | write n | call n => exact s.strategy_evaluate i j _ _
  | clear p => cases p <;> rfl

theorem growsTo_step (e : Event) : s.registry.GrowsTo (s.step e).registry := by
  rcases s.step_cases 0 e with ⟨c, -, hr, -⟩ | ⟨hr, -⟩ <;> rw [hr]
  · exact Registry.growsTo_apply _ c
  · exact .refl _

end Memory

theorem growsTo_run (s : Session) (es : List Event) : s.registry.GrowsTo (s.run es).registry := by
  induction es generalizing s with
  | nil => exact .refl _
  | cons e rest ih => exact (s.growsTo_step e).trans (ih (s.step e))

/-- A property of a registry and a memory that every touch and every change keeps. -/
structure Invariant (I : Registry → Introspector → Prop) : Prop where
  touch : ∀ {r k} t, I r k → I r (k.touch r t)
  change : ∀ {r k} c, I r k → I (r.apply c) k

theorem Invariant.asked {I : Registry → Introspector → Prop} (hI : Invariant I) {r : Registry}
    {k : Introspector} (h : I r k) (qs : List Query) : I r (k.asked r qs) := by
  induction qs generalizing k with
  | nil => exact h
  | cons q rest ih =>
    rw [k.asked_cons r q rest]
    exact ih (hI.touch q.touch h)

theorem Invariant.step {I : Registry → Introspector → Prop} (hI : Invariant I) {s : Session} {i : Nat}
    (h : I s.registry (s.memory i)) (e : Event) : I (s.step e).registry ((s.step e).memory i) := by
  rcases s.step_cases i e with ⟨c, -, hr, hk⟩ | ⟨hr, ⟨t, -, hk⟩ | ⟨qs, hk⟩⟩ <;> rw [hr, hk]
  · exact hI.change c h
  · exact hI.touch t h
  · exact hI.asked h qs

/-- **An invariant holds in every run.** -/
theorem Invariant.run {I : Registry → Introspector → Prop} (hI : Invariant I) {s : Session} {i : Nat}
    (h : I s.registry (s.memory i)) (es : List Event) : I (s.run es).registry ((s.run es).memory i) := by
  induction es generalizing s with
  | nil => exact h
  | cons e rest ih => exact ih (hI.step h e)

theorem invariant_inOrder : Invariant fun _ k => k.InOrder where
  touch t h := Introspector.inOrder_touch h _ t
  change _ h := h

theorem invariant_grounded : Invariant fun r k =>
    r.Proper ∧ Registry.initial.GrowsTo r ∧ k.Grounded r where
  touch t h := ⟨h.1, h.2.1, Introspector.grounded_touch h.2.2 t⟩
  change c h :=
    have hgrows := Registry.growsTo_apply _ c
    ⟨Registry.proper_apply h.1 c, h.2.1.trans hgrows, h.2.2.growsTo h.1 hgrows⟩

/-- The registry and the memories of a session, in every run. -/
theorem grounded_run (policy : Nat → Policy) (strategy : Nat → Strategy) (heap : Heap) (es : List Event)
    (i : Nat) :
    ((start policy strategy heap).run es).registry.Proper ∧
      Registry.initial.GrowsTo ((start policy strategy heap).run es).registry ∧
      (((start policy strategy heap).run es).memory i).Grounded ((start policy strategy heap).run es).registry :=
  invariant_grounded.run (s := start policy strategy heap)
    ⟨Registry.proper_initial, .refl _, Introspector.grounded_new _ _⟩ es

/-! ## What memories recall -/

theorem recalls_asked {r : Registry} {k : Introspector} (hk : k.InOrder) (qs : List Query) :
    (k.asked r qs).Recalls r k := by
  induction qs generalizing k with
  | nil => exact .refl r k
  | cons q rest ih =>
    rw [k.asked_cons]
    refine (ih (Introspector.inOrder_touch hk r q.touch)).trans (Introspector.recalls_touch hk r ?_)
    intro c
    cases q <;> exact nofun

/-- **An event that retires no class and purges no map of an engine** leaves the same classes alive, and the
engine recalls what it knew. -/
theorem recalls_step {s : Session} {i : Nat} {e : Event} (hk : (s.memory i).InOrder)
    (hretire : ∀ D, e ≠ .change (.retire D)) (hpurge : ∀ c, e ≠ .touch i (.purge c)) :
    s.registry.SteadyTo (s.step e).registry ∧ ((s.step e).memory i).Recalls s.registry (s.memory i) := by
  rcases s.step_cases i e with ⟨c, rfl, hr, hk'⟩ | ⟨hr, ⟨t, rfl, hk'⟩ | ⟨qs, hk'⟩⟩ <;> rw [hr, hk']
  · refine ⟨Registry.steadyTo_apply _ ?_, .refl _ _⟩
    rintro D rfl
    exact hretire D rfl
  · refine ⟨.refl _, Introspector.recalls_touch hk _ ?_⟩
    rintro c rfl
    exact hpurge c rfl
  · exact ⟨.refl _, recalls_asked hk qs⟩

/-! ## What sites remember -/

/-- The site of an evaluation. -/
def Use.place : Use → Place
  | read n .. => .read n
  | write n .. => .write n
  | call n .. => .call n

/-- What an evaluation asks its engine to find. -/
def Use.discovery : Use → Discovery
  | read _ style target key => .read (.style style) target key
  | write _ style target key v => .write (.style style) target key v
  | call _ target name args => .call target name args

/-- The binding that a site remembers. -/
def cached (s : Session) : Place → Option Binding
  | .read n => (s.readSites n).cached.map .reader
  | .write n => (s.writeSites n).cached.map .writer
  | .call n => (s.callSites n).cached.map .caller

/-- The site of an evaluation takes up a binding: the engine has just searched, and found it. -/
structure TakesUp (s : Session) (i : Nat) (u : Use) (b : Binding) : Prop where
  found : (u.discovery.search (s.engines i) s.registry (s.memory i)).1 = .ok (some b)
  engine : (s.use i u).2.engines i = { s.engines i with
    introspector := (u.discovery.search (s.engines i) s.registry (s.memory i)).2 }

variable {s : Session} {b : Binding}

/-- What one of many sites remembers after an evaluation at one of them. -/
theorem cached_update {β : Type} {sites : Nat → Site β} {p : Plan β} {wrap : β → Binding} {n m : Nat} {w : World}
    (h : (Function.update sites n ((sites n).evaluate p w).2.1 m).cached.map wrap = some b) :
    (sites m).cached.map wrap = some b ∨ n = m ∧ (p.found w).map (·.map wrap) = .ok (some b) ∧
      ((sites n).evaluate p w).2.2.engine = (p.searched w).engine := by
  rw [Function.update_apply] at h
  split at h
  · rename_i hm
    subst hm
    obtain ⟨b, hb, rfl⟩ := Option.map_eq_some_iff.1 h
    rcases Site.cached_evaluate hb with hc | ⟨hfound, hengine⟩
    · exact Or.inl (Option.map_eq_some_iff.2 ⟨b, hc, rfl⟩)
    · refine Or.inr ⟨rfl, ?_, hengine⟩
      rw [hfound]
      rfl
  · exact Or.inl h

/-- What is taken up is what a search has found and its engine has learnt. -/
theorem takesUp_of_found {β : Type} {i : Nat} {u : Use} {p : Plan β} {wrap : β → Binding}
    (hu : u.discovery.search (s.engines i) s.registry = (do pure ((← p.find).map wrap)))
    (hfound : (p.found (s.world i)).map (·.map wrap) = .ok (some b))
    (hengine : (s.use i u).2.engines i = (p.searched (s.world i)).engine) : s.TakesUp i u b where
  found := by
    rw [hu, Search.map_apply]
    exact hfound
  engine := by
    rw [hu, Search.map_apply]
    exact hengine

theorem cached_use (i : Nat) (u : Use) {p : Place} (h : (s.use i u).2.cached p = some b) :
    s.cached p = some b ∨ u.place = p ∧ s.TakesUp i u b := by
  cases u with
  | read n style target key =>
    cases p with
    | write m | call m => exact Or.inl h
    | read m =>
      rcases cached_update h with hc | ⟨rfl, hfound, hengine⟩
      · exact Or.inl hc
      · exact Or.inr ⟨rfl, takesUp_of_found rfl hfound ((Function.update_self ..).trans hengine)⟩
  | write n style target key v =>
    cases p with
    | read m | call m => exact Or.inl h
    | write m =>
      rcases cached_update h with hc | ⟨rfl, hfound, hengine⟩
      · exact Or.inl hc
      · exact Or.inr ⟨rfl, takesUp_of_found rfl hfound ((Function.update_self ..).trans hengine)⟩
  | call n target name args =>
    cases p with
    | read m | write m => exact Or.inl h
    | call m =>
      rcases cached_update h with hc | ⟨rfl, hfound, hengine⟩
      · exact Or.inl hc
      · exact Or.inr ⟨rfl, takesUp_of_found rfl hfound ((Function.update_self ..).trans hengine)⟩

theorem cached_clear {p q : Place} (h : (s.clear q).cached p = some b) : s.cached p = some b := by
  cases p <;> cases q <;> simp only [cached, clear, Function.update_apply] at h ⊢ <;> try exact h
  all_goals
    split at h
    · cases h
    · exact h

/-- **What a site remembers after an event** it remembered before, or an evaluation there has taken it up. -/
theorem cached_step (e : Event) {p : Place} (h : (s.step e).cached p = some b) :
    s.cached p = some b ∨ ∃ i u, e = .use i u ∧ u.place = p ∧ s.TakesUp i u b := by
  cases e with
  | use i u =>
    refine (cached_use i u h).imp_right ?_
    rintro ⟨hp, htaken⟩
    exact ⟨i, u, rfl, hp, htaken⟩
  | clear q => exact Or.inl (cached_clear h)
  | change c | host f | touch i t | find i d => cases p <;> exact Or.inl h

end Session

end MemberAccess
