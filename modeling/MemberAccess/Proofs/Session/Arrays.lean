import Mathlib.Data.List.Induction
import MemberAccess.Proofs.Arrays
import MemberAccess.Proofs.Binding.Element
import MemberAccess.Proofs.Session.PropertySite
import MemberAccess.Proofs.Session.Retirement

/-!
# Arrays in a session

Elements of arrays are written on four ways: by the host, by a writer that is used or tried, and by an evaluation at a
site. All of them come to the same write, and an evaluation comes to no other one: whatever its engine has been asked
and its site has kept, on an array it only finds the elements.

* `Session.WritesElements`: what sites keep of array classes, and `writesElements_run`: it holds in every run.
* `Session.use_element`: an evaluation that writes to an array.
* `Stock.Step`: what is done to a session and its arrays, and `sound_step`, `sound_steps`: arrays stay sound.
* `Stock.Writes`: the four ways to write an element.
* `Stock.arrays_kept`: what holds of arrays at any time, and from then on.
-/

namespace MemberAccess

open Relation

namespace Session

variable {s : Session} {i n : Nat} {a : ArrayRef} {key v : Value}

/-! ## Writing to an array at a site -/

theorem invariant_orderly : Invariant fun r k =>
    r.Proper ∧ Registry.initial.GrowsTo r ∧ r.Made ∧ k.Orderly r where
  touch t h := by
    obtain ⟨hp, hinit, hmade, hk⟩ := h
    exact ⟨hp, hinit, hmade, hk.touch hinit hp hmade t⟩
  change {r k} c h := by
    obtain ⟨hp, hinit, hmade, hk⟩ := h
    have hr : r.GrowsTo (r.apply c) := Registry.growsTo_apply r c
    exact ⟨Registry.proper_apply hp c, hinit.trans hr, Registry.made_apply hmade c, hk.inOrder,
      hk.grounded.growsTo hp hr, hk.bare.growsTo hr hk.grounded⟩

/-- A registry and memories of which a search for a writer on an array class finds nothing but the elements. -/
def Orderly (s : Session) : Prop :=
  ∀ i, s.registry.Proper ∧ Registry.initial.GrowsTo s.registry ∧ s.registry.Made ∧ (s.memory i).Orderly s.registry

theorem orderly_run (policy : Nat → Policy) (strategy : Nat → Strategy) (heap : Heap) (es : List Event) :
    ((start policy strategy heap).run es).Orderly := fun _ =>
  invariant_orderly.run (s := start policy strategy heap)
    ⟨Registry.proper_initial, .refl _, Registry.made_initial, Introspector.inOrder_new _,
      Introspector.grounded_new _ _, Introspector.bare_new _ _⟩ es

/-- What a search for a writer on an array class finds. -/
theorem found_element (h : s.Orderly) (harray : s.registry.isArray a.cls = true) (i : Nat) (style : AccessStyle)
    (key v : Value) :
    (s.writePlan i style (.array a) key v).found (s.world i) = .ok (Writer.element? a.cls key) := by
  obtain ⟨hp, hinit, hmade, hk⟩ := h i
  have hlist : .list ∈ (s.engines i).resolvers s.registry (.array a) style :=
    Strategy.list_mem_resolvers hinit hp hmade harray (s.engines i).strategy style
  have hyields := (Resolver.yields_firstWriter hinit hp hmade harray ((s.engines i).resolvers s.registry (.array a) style)
    (Eq.refl (Value.array a).cls) rfl key v _ hk).1
  rw [if_pos hlist] at hyields
  exact hyields

/-- What sites for writes keep of array classes are writers for elements. -/
def WritesElements (s : Session) : Prop := ∀ n b, s.cached (.write n) = some (.writer b) →
  b.cls.index < s.registry.size ∧ (s.registry.isArray b.cls = true → ∃ i, b.route = .list .array i)

theorem writesElements_step (hs : s.WritesElements) (h : s.Orderly) (e : Event) : (s.step e).WritesElements := by
  intro n b hb
  rcases cached_step e hb with hc | ⟨j, u, rfl, hplace, htaken⟩
  · -- the class of a binding that was there is what it was
    obtain ⟨hsize, hroute⟩ := hs n b hc
    have hr := s.growsTo_step e
    refine ⟨Nat.lt_of_lt_of_le hsize hr.size_le, fun harray => hroute ?_⟩
    rwa [Registry.isArray_growsTo hr hsize] at harray
  · cases u with
    | read | call => cases hplace
    | write m style target key v =>
      have hnull : target.isNull = false := Use.isNull_of_found (u := .write m style target key v) rfl htaken.found
      obtain ⟨b', hfound, hsame⟩ := Search.found_of_map htaken.found
      cases hsame
      obtain ⟨hp, hinit, hmade, hk⟩ := h j
      obtain ⟨⟨hcls, hroute⟩, -⟩ := (Resolver.found_firstWriter (Introspector.keptByQueries_grounded s.registry) _ target
        key v (s.memory j) ⟨hk.inOrder, hk.grounded⟩).2.1 _ hfound b rfl
      have hregistry : (s.step (.use j (.write m style target key v))).registry = s.registry := s.use_registry j _
      rw [hregistry, hcls]
      refine ⟨hroute.leadsInto.registered, fun harray => ?_⟩
      have hyields := (Resolver.yields_firstWriter hinit hp hmade harray
        (SearchOrder.of (s.engines j) s.registry target (.style style)) rfl hnull key v _ hk).1
      rw [hfound] at hyields
      split at hyields
      · obtain ⟨i, -, rfl⟩ := Option.map_eq_some_iff.1 (Except.ok.inj hyields).symm
        exact ⟨i, rfl⟩
      · cases hyields

theorem writesElements_run (policy : Nat → Policy) (strategy : Nat → Strategy) (heap : Heap) (es : List Event) :
    ((start policy strategy heap).run es).WritesElements := by
  induction es using List.reverseRecOn with
  | nil => exact fun n b hb => by cases hb
  | append_singleton es e ih =>
    rw [run_concat]
    exact writesElements_step ih (orderly_run policy strategy heap es) e

/-- **An evaluation that writes to an array** writes the element that the property stands for, and when it stands for
none, there is nothing to write to. -/
theorem use_element (h : s.Orderly) (hs : s.WritesElements) (harray : s.registry.isArray a.cls = true)
    (i n : Nat) (style : AccessStyle) (key v : Value) :
    (key.toIndex? = none → (s.use i (.write n style (.array a) key v)).1 = .ok none ∧
      (s.use i (.write n style (.array a) key v)).2.heap = s.heap) ∧
    ∀ {j}, key.toIndex? = some j →
      (s.use i (.write n style (.array a) key v)).1 =
        ((Access.writeElement (.array a) j v).run s.heap).1.map some ∧
      (s.use i (.write n style (.array a) key v)).2.heap = (a.set j v s.heap).2 := by
  let plan := s.writePlan i style (.array a) key v
  have hanswer : (s.use i (.write n style (.array a) key v)).1 = ((s.writeSites n).evaluate plan (s.world i)).1 := rfl
  have hheap : (s.use i (.write n style (.array a) key v)).2.heap =
      ((s.writeSites n).evaluate plan (s.world i)).2.2.heap := rfl
  have hfound : plan.found (s.world i) = .ok (Writer.element? a.cls key) := found_element h harray i style key v
  rw [hanswer, hheap]
  rcases (s.writeSites n).evaluate_cases plan (s.world i) with ⟨-, e⟩ | ⟨b, x, hb, hx, hcases⟩
  · -- nothing that the site remembers applies, so the engine searches
    obtain ⟨hmiss, hworld, -⟩ := (s.writeSites n).miss_spec plan (s.world i)
    rw [e, hmiss, hworld]
    rcases plan.fresh_cases (s.world i) with ⟨tie, htie, -⟩ | ⟨hnone, e'⟩ | ⟨b, hb, e'⟩
    · rw [hfound] at htie
      cases htie
    · rw [hfound] at hnone
      have hkey : key.toIndex? = none := Option.map_eq_none_iff.1 (Except.ok.inj hnone)
      rw [e', hkey]
      refine ⟨fun _ => ⟨rfl, rfl⟩, ?_⟩
      intro j hj
      cases hj
    · rw [hfound] at hb
      obtain ⟨j, hkey, rfl⟩ := Option.map_eq_some_iff.1 (Except.ok.inj hb)
      rw [e', hkey]
      refine ⟨nofun, fun {j'} hj => ?_⟩
      cases hj
      have hinvoke : plan.invoke ⟨a.cls, .list .array j⟩ = (Access.writeElement (.array a) j v).run := rfl
      have hsame : (s.world i).heap = s.heap := rfl
      rw [hinvoke, hsame]
      simp only [Access.run_apply, Access.host_writeElement, and_true]
      cases (a.set j v s.heap).1 <;> rfl
  · -- what applies is of the class of the array, and so it writes an element
    obtain ⟨hcls, -, hreplay⟩ := Writer.of_replay? hx
    have hcached : s.cached (.write n) = some (.writer b) := by simp only [cached, hb, Option.map_some]
    have hbarray : s.registry.isArray b.cls = true := hcls ▸ harray
    obtain ⟨bound, hroute⟩ := (hs n b hcached).2 hbarray
    rw [hroute] at hreplay
    obtain ⟨j, hkey, rfl⟩ := Option.map_eq_some_iff.1 hreplay
    rcases hcases with ⟨hstale, -⟩ | ⟨-, site, -, e⟩
    · cases (Access.refused_of_stale hstale).1
    · rw [e, hkey]
      refine ⟨nofun, fun {j'} hj => ?_⟩
      cases hj
      have haccess : (WriteRoute.list .array j).access (.array a) v = .writeElement (.array a) j v := rfl
      rw [haccess]
      exact ⟨rfl, congrArg Prod.snd (Access.host_writeElement a j v s.heap)⟩

/-- **The ways to write an element of an array.** All of them put the element, or do nothing: a write by the host, a
writer for elements that is used for the index it is bound to, one that is tried for an array of its class and a
property that stands for an index, and an evaluation with such a property. -/
structure Writes (s : Session) (a : ArrayRef) : Prop where
  set : ∀ i v, s.heap.Puts a i v ((a.set i v s.heap).1 = .ok ()) (a.set i v s.heap).2
  invoke : ∀ {b : Writer} {i}, b.route = .list .array i → ∀ v,
    s.heap.Puts a i v ((b.invoke (.array a) v s.heap).1 = .ok v) (b.invoke (.array a) v s.heap).2
  tryInvoke : ∀ {b : Writer} {i}, b.route = .list .array i → ∀ key v,
    (∀ {j}, a.cls = b.cls → key.toIndex? = some j → s.heap.Puts a j v
      ((b.tryInvoke (.array a) key v s.heap).1 = .ok (.done v)) (b.tryInvoke (.array a) key v s.heap).2) ∧
    (a.cls ≠ b.cls ∨ key.toIndex? = none → b.tryInvoke (.array a) key v s.heap = (.ok .stale, s.heap))
  evaluate : ∀ i n style key v,
    (∀ {j}, key.toIndex? = some j → s.heap.Puts a j v
      ((s.use i (.write n style (.array a) key v)).1 = .ok (some v)) (s.use i (.write n style (.array a) key v)).2.heap) ∧
    (key.toIndex? = none → (s.use i (.write n style (.array a) key v)).1 = .ok none ∧
      (s.use i (.write n style (.array a) key v)).2.heap = s.heap)

theorem writes (h : s.Orderly) (hs : s.WritesElements) (harray : s.registry.isArray a.cls = true) : s.Writes a where
  set i v := a.set_puts i v s.heap
  invoke {b i} hroute v := by
    have hheap : ((Access.writeElement (.array a) i v).run s.heap).2 = (a.set i v s.heap).2 :=
      congrArg Prod.snd (Access.host_writeElement a i v s.heap)
    rw [Writer.invoke_element hroute, hheap]
    exact (a.set_puts i v s.heap).congr (Access.run_writeElement a i v s.heap)
  tryInvoke {b i} hroute key v := by
    unfold Writer.tryInvoke
    rw [Writer.replay?_element hroute]
    constructor
    · intro j hcls hkey
      rw [if_pos hcls, hkey]
      obtain ⟨hdone, hheap⟩ := Access.attempt_writeElement a j v s.heap
      simp only [Option.map_some, attemptIf]
      rw [hheap]
      exact (a.set_puts j v s.heap).congr hdone
    · rintro (hcls | hkey)
      · rw [if_neg hcls]
        rfl
      · rw [hkey]
        split <;> rfl
  evaluate i n style key v := by
    obtain ⟨hnone, hsome⟩ := use_element h hs harray i n style key v
    refine ⟨fun {j} hj => ?_, hnone⟩
    obtain ⟨hanswer, hheap⟩ := hsome hj
    rw [hanswer, hheap]
    refine (a.set_puts j v s.heap).congr ?_
    rw [← Access.run_writeElement]
    cases ((Access.writeElement (.array a) j v).run s.heap).1 <;> simp [Except.map]

/-- What happens to a session without a look at its heap. -/
def Event.SparesHeap : Event → Prop
  | host _ | use .. => False
  | change _ | touch .. | find .. | clear _ => True

theorem heap_step {e : Event} (he : e.SparesHeap) : (s.step e).heap = s.heap := by
  cases e with
  | host | use => exact he.elim
  | clear p => cases p <;> rfl
  | change | touch | find => rfl

end Session

/-! ## Sessions and their arrays -/

/-- A session, and the arrays that have been made in it. -/
structure Stock where
  session : Session
  made : List ArrayRef

namespace Stock

def arrays (st : Stock) : Arrays := ⟨st.made, st.session.heap⟩

/-- The start of a session, with any objects and no arrays. -/
def start (policy : Nat → Policy) (strategy : Nat → Strategy) (objects : List ObjectState) : Stock :=
  ⟨.start policy strategy ⟨[], objects⟩, []⟩

/-- What is done to a session and its arrays: an array is made, or an element written; a writer is used or tried; an
evaluation is made at a site; host code runs; or something happens that leaves the heap alone. Members and host code
reach arrays through their interface only. -/
inductive Step : Stock → Stock → Prop
  | newArray {st t items a r heap}
      (hok : st.session.registry.newArray st.session.heap t items = .ok (a, r, heap)) :
      Step st ⟨{ st.session with registry := r, heap := heap }, st.made ++ [a]⟩
  | set {st a} (ha : a ∈ st.made) (i : Int32) (v : Value) :
      Step st ⟨{ st.session with heap := (a.set i v st.session.heap).2 }, st.made⟩
  | invoke {st made} (b : Writer) (target v : Value)
      (hruns : Arrays.Runs st.session.registry [b.access target v] st.arrays ⟨made, (b.invoke target v st.session.heap).2⟩) :
      Step st ⟨{ st.session with heap := (b.invoke target v st.session.heap).2 }, made⟩
  | tryInvoke {st made} (b : Writer) (target key v : Value)
      (hruns : Arrays.Runs st.session.registry (b.replay? target key v).toList st.arrays
        ⟨made, (b.tryInvoke target key v st.session.heap).2⟩) :
      Step st ⟨{ st.session with heap := (b.tryInvoke target key v st.session.heap).2 }, made⟩
  | evaluate {st made} (i : Nat) (u : Session.Use)
      (hruns : Arrays.Runs st.session.registry (st.session.ran i u) st.arrays ⟨made, (st.session.use i u).2.heap⟩) :
      Step st ⟨(st.session.use i u).2, made⟩
  | host {st made} (f : Heap → Heap)
      (hmoves : ReflTransGen (Arrays.Moves st.session.registry) st.arrays ⟨made, f st.session.heap⟩) :
      Step st ⟨st.session.step (.host f), made⟩
  | event {st} (e : Session.Event) (hspares : e.SparesHeap) : Step st ⟨st.session.step e, st.made⟩

variable {st st' : Stock}

/-- What a step does to the session, events do. -/
theorem Step.run (h : Step st st') : ∃ es, st'.session = st.session.run es := by
  cases h with
  | @newArray t items a r heap hok =>
    obtain ⟨-, -, rfl, -⟩ := Registry.newArray_ok hok
    exact ⟨[.change (.arrayClass t), .host fun _ => heap], rfl⟩
  | @set a ha i v => exact ⟨[.host fun h => (a.set i v h).2], rfl⟩
  | invoke b target v => exact ⟨[.host fun h => (b.invoke target v h).2], rfl⟩
  | tryInvoke b target key v => exact ⟨[.host fun h => (b.tryInvoke target key v h).2], rfl⟩
  | evaluate i u => exact ⟨[.use i u], rfl⟩
  | host f => exact ⟨[.host f], rfl⟩
  | event e => exact ⟨[e], rfl⟩

theorem run_of_steps (h : ReflTransGen Step st st') : ∃ es, st'.session = st.session.run es := by
  induction h with
  | refl => exact ⟨[], rfl⟩
  | tail _ hstep ih =>
    obtain ⟨es, hes⟩ := ih
    obtain ⟨es', hes'⟩ := hstep.run
    exact ⟨es ++ es', by rw [hes', hes, Session.run_append]⟩

/-- **One step** keeps arrays sound. -/
theorem sound_step (h : Step st st') (hs : st.arrays.Sound st.session.registry) :
    st'.arrays.Sound st'.session.registry ∧ st.arrays.KeepsTo st'.arrays := by
  cases h with
  | newArray hok =>
    obtain ⟨hs', hkeeps, -⟩ := Arrays.sound_newArray hs hok
    exact ⟨hs', hkeeps⟩
  | set ha i v => exact Arrays.sound_set hs ha i v
  | invoke b target v hruns => exact Arrays.sound_moves hs hruns.moves
  | tryInvoke b target key v hruns => exact Arrays.sound_moves hs hruns.moves
  | evaluate i u hruns =>
    obtain ⟨hs', hkeeps⟩ := Arrays.sound_moves hs hruns.moves
    refine ⟨?_, hkeeps⟩
    simp only [st.session.use_registry i u]
    exact hs'
  | host f hmoves => exact Arrays.sound_moves hs hmoves
  | event e hspares =>
    have hheap : (st.session.step e).heap = st.session.heap := Session.heap_step hspares
    have hsame : arrays ⟨st.session.step e, st.made⟩ = st.arrays := by
      unfold arrays
      rw [hheap]
    rw [hsame]
    exact ⟨hs.growsTo (st.session.growsTo_step e), .refl _⟩

/-- **Steps keep arrays sound.** -/
theorem sound_steps (h : ReflTransGen Step st st') (hs : st.arrays.Sound st.session.registry) :
    st'.arrays.Sound st'.session.registry ∧ st.arrays.KeepsTo st'.arrays := by
  induction h with
  | refl => exact ⟨hs, .refl _⟩
  | tail _ hstep ih =>
    obtain ⟨hs', hkeeps⟩ := ih
    obtain ⟨hs'', hkeeps'⟩ := sound_step hstep hs'
    exact ⟨hs'', hkeeps.trans hkeeps'⟩

/-- **Arrays are kept.** After any steps from the start, the arrays on the heap are those that have been made; each is
of a class of arrays of its component, and holds elements of its kind if the component is a primitive. After any
further steps it is still there, with as many elements. However an element is written, it is put, or nothing is done.
An array that is made has the elements that it was asked for. -/
theorem arrays_kept (policy : Nat → Policy) (strategy : Nat → Strategy) (objects : List ObjectState) {st st' : Stock}
    (h : ReflTransGen Step (start policy strategy objects) st) (h' : ReflTransGen Step st st') :
    st.made.map (·.address) = List.range st.session.heap.arrays.length ∧
    (∀ a ∈ st.made,
      (∃ d, st.session.registry.class? a.cls = some d ∧ d.component = some a.component) ∧
      (∀ p, a.component = .primitive p → ∀ v ∈ st.session.heap.elements a, v.primitive? = some p) ∧
      (a ∈ st'.made ∧ (st'.session.heap.elements a).length = (st.session.heap.elements a).length) ∧
      st.session.Writes a) ∧
    ∀ t items a r heap, st.session.registry.newArray st.session.heap t items = .ok (a, r, heap) →
      heap.elements a = items := by
  have hstart : (start policy strategy objects).arrays.Sound (start policy strategy objects).session.registry :=
    ⟨rfl, fun a ha => (by cases ha), fun a ha => (by cases ha)⟩
  obtain ⟨hsound, -⟩ := sound_steps h hstart
  obtain ⟨-, hkeeps⟩ := sound_steps h' hsound
  -- the session is one that events lead to
  obtain ⟨es, hes⟩ := run_of_steps h
  have horderly : st.session.Orderly := hes ▸ Session.orderly_run policy strategy ⟨[], objects⟩ es
  have hwrites : st.session.WritesElements := hes ▸ Session.writesElements_run policy strategy ⟨[], objects⟩ es
  obtain ⟨hp, -, -, -⟩ := horderly 0
  refine ⟨hsound.numbered, fun a ha => ?_, fun t items a r heap hok => (Arrays.sound_newArray hsound hok).2.2⟩
  obtain ⟨d, hd, hcomponent⟩ := hp.component_of_arrayOf? (hsound.classed a ha)
  have harray : st.session.registry.isArray a.cls = true := by
    unfold Registry.isArray
    rw [hd]
    simp [ClassDef.isArray, hcomponent]
  refine ⟨⟨d, hd, hcomponent⟩, ?_, hkeeps a ha, Session.writes horderly hwrites harray⟩
  intro p hprimitive v hv
  exact hsound.admitted a ha v hv p hprimitive

/-- The first array of ints in a session. -/
def ints : ArrayRef := ⟨0, ⟨19⟩, .primitive .int⟩

/-- A session with that array, of two elements. -/
def pair : Stock where
  session := { Session.start (fun _ => .unrestricted) (fun _ => .pojo) ⟨[], []⟩ with
    registry := (Registry.initial.arrayClass (.primitive .int)).2
    heap := ⟨[[.int 1, .int 2]], []⟩ }
  made := [ints]

/-- Writing the second one in a script. -/
def writeSecond : Session.Use := .write 0 .bracket (.array ints) (.int 1) (.int 5)

/-- The session in which that has been done. -/
def replaced : Stock := ⟨(pair.session.use 0 writeSecond).2, [ints]⟩

theorem pair_made : Step (start (fun _ => .unrestricted) (fun _ => .pojo) []) pair := by
  have hok : (start (fun _ => .unrestricted) (fun _ => .pojo) []).session.registry.newArray
      (start (fun _ => .unrestricted) (fun _ => .pojo) []).session.heap (.primitive .int) [.int 1, .int 2] =
        .ok (ints, pair.session.registry, pair.session.heap) := rfl
  exact .newArray hok

theorem replaced_written : Step pair replaced := by
  have hran : pair.session.ran 0 writeSecond = [.writeElement (.array ints) 1 (.int 5)] := rfl
  refine .evaluate 0 writeSecond ?_
  rw [Session.use_heap, hran]
  refine .element rfl ?_ .nil
  intro a i v hwrite
  cases hwrite
  exact List.mem_singleton_self ints

/-- The array of two ints, before and after its second element is written. -/
theorem arrays_kept_ints :
    ReflTransGen Step (start (fun _ => .unrestricted) (fun _ => .pojo) []) pair ∧ ReflTransGen Step pair replaced ∧
    pair.made.map (·.address) = List.range pair.session.heap.arrays.length ∧
    (∀ a ∈ pair.made,
      (∃ d, pair.session.registry.class? a.cls = some d ∧ d.component = some a.component) ∧
      (∀ p, a.component = .primitive p → ∀ v ∈ pair.session.heap.elements a, v.primitive? = some p) ∧
      (a ∈ replaced.made ∧ (replaced.session.heap.elements a).length = (pair.session.heap.elements a).length) ∧
      pair.session.Writes a) ∧
    ∀ t items a r heap, pair.session.registry.newArray pair.session.heap t items = .ok (a, r, heap) →
      heap.elements a = items :=
  ⟨.single pair_made, .single replaced_written, arrays_kept (fun _ => .unrestricted) (fun _ => .pojo) []
    (.single pair_made) (.single replaced_written)⟩

end Stock

end MemberAccess
