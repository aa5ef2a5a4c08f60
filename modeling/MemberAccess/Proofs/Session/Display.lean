import MemberAccess.Proofs.Display
import MemberAccess.Proofs.Session.Arrays

/-!
# The texts of values in a session

Whatever is done in a session, the values that have no text are those that lead to an array that contains itself. Such
an array can be made: nothing keeps an element from being an array that it is inside of. It takes a write to an array,
by a host or by a script, and it takes no more than one.

* `Host.KeepsArrays`: host code that leaves arrays alone; `Core.keepsArrays`: all methods of core classes.
* `Heap.DisplaysAs`: what every way to display a value answers.
* `Session.ComesToDeeds`: what is done to arrays in a session, as deeds, and `comesToDeeds_run`.
* `Session.Does`: events, and the deeds that they come to.
* `Session.displays_iff`: which values can be displayed, and as long as which deeds are done all of them can.
-/

namespace MemberAccess

open Relation

theorem Value.display_apply (v : Value) (h : Heap) :
    v.display h = ((h.display v).elim (.error .endless) .ok, h) := by
  have hget : (get : Host Heap) h = (.ok h, h) := rfl
  unfold Value.display
  rw [bind_apply, hget]
  simp only
  cases h.display v <;> rfl

/-! ## Methods of core classes -/

/-- Host code that leaves arrays alone. -/
def Host.KeepsArrays {α : Type} (x : Host α) : Prop := ∀ h, (x h).2.arrays = h.arrays

namespace Host.KeepsArrays

variable {α β : Type}

theorem pure (v : α) : KeepsArrays (Pure.pure v : Host α) := fun _ => rfl

theorem fail (f : HostFault) : KeepsArrays (Host.fail f : Host α) := fun _ => rfl

theorem ofExcept (e : Except HostFault α) : KeepsArrays (Host.ofExcept e) := by
  cases e with
  | error f => exact fail f
  | ok v => exact pure v

theorem bind {x : Host α} {f : α → Host β} (hx : KeepsArrays x) (hf : ∀ v, KeepsArrays (f v)) :
    KeepsArrays (x >>= f) := by
  intro h
  rw [bind_apply]
  rcases hresult : x h with ⟨answer, h'⟩
  have harrays : h'.arrays = h.arrays := by
    have := hx h
    rwa [hresult] at this
  cases answer with
  | error e => exact harrays
  | ok v => exact (hf v h').trans harrays

theorem display (v : Value) : KeepsArrays v.display := fun h => by rw [v.display_apply]

theorem setState (o : ObjectRef) (state : ObjectState) : KeepsArrays (modify (·.setState o state) : Host Unit) :=
  fun _ => rfl

theorem stateAs {σ : Type} (kind : String) (read : ObjectState → Option σ) (v : Value) :
    KeepsArrays (v.stateAs kind read) := by
  cases v with
  | object o =>
    intro h
    have hget : (get : Host Heap) h = (.ok h, h) := rfl
    unfold Value.stateAs
    simp only
    rw [bind_apply, hget]
    simp only
    cases read (h.state o) <;> rfl
  | _ => exact fail _

theorem asList (v : Value) : KeepsArrays v.asList := stateAs _ _ v

theorem asMap (v : Value) : KeepsArrays v.asMap := stateAs _ _ v

end Host.KeepsArrays

theorem ClassDecl.methods_ofName (qualified : String) : (ClassDecl.ofName qualified).methods = [] := by
  unfold ClassDecl.ofName
  split <;> rfl

/-- All methods of a class leave arrays alone. -/
def ClassDecl.KeepsArrays (d : ClassDecl) : Prop := ∀ m ∈ d.methods, ∀ target args, (m.body target args).KeepsArrays

namespace ClassDecl.KeepsArrays

variable {d : ClassDecl} {name : String} {params : List Ty} {returns : Ty} {body : Body}

theorem ofName (qualified : String) : (ClassDecl.ofName qualified).KeepsArrays := by
  intro m hm
  rw [methods_ofName] at hm
  cases hm

theorem addMethod {m : MethodDecl} (hd : d.KeepsArrays) (hm : ∀ target args, (m.body target args).KeepsArrays) :
    (d.addMethod m).KeepsArrays := by
  intro m' hm'
  rcases List.mem_append.1 hm' with hold | hnew
  · exact hd m' hold
  · rw [List.mem_singleton.1 hnew]
    exact hm

theorem method (hd : d.KeepsArrays) (hbody : ∀ target args, (body target args).KeepsArrays) :
    (d.method name params returns body).KeepsArrays := hd.addMethod hbody

theorem staticMethod (hd : d.KeepsArrays) (hbody : ∀ target args, (body target args).KeepsArrays) :
    (d.staticMethod name params returns body).KeepsArrays := hd.addMethod hbody

/-- What else a class has does not matter. -/
theorem congr {d' : ClassDecl} (hd : d.KeepsArrays) (hmethods : d'.methods = d.methods) : d'.KeepsArrays :=
  fun m hm => hd m (hmethods ▸ hm)

end ClassDecl.KeepsArrays

namespace Core

open Host.KeepsArrays (pure fail bind ofExcept asList asMap setState display)

variable {d : ClassDecl}

theorem keepsArrays_collectionMethods (hd : d.KeepsArrays) : (collectionMethods d).KeepsArrays := by
  refine ((hd.method ?_).method ?_).method ?_ <;> intro target args
  · exact bind (asList target) fun _ => pure _
  · exact bind (asList target) fun _ => pure _
  · exact bind (asList target) fun _ => bind (ofExcept _) fun _ => pure _

theorem keepsArrays_listMethods (hd : d.KeepsArrays) : (listMethods d).KeepsArrays := by
  refine (((keepsArrays_collectionMethods hd).method ?_).method ?_).method ?_ <;> intro target args
  · exact bind (asList target) fun _ => bind (ofExcept _) fun _ =>
      bind (asList target) fun _ => bind (ofExcept _) fun _ => pure _
  · exact bind (asList target) fun _ => bind (ofExcept _) fun _ => bind (ofExcept _) fun _ =>
      bind (asList target) fun _ => bind (ofExcept _) fun _ => bind (setState _ _) fun _ => pure _
  · exact bind (ofExcept _) fun _ => bind (bind (asList target) fun _ => setState _ _) fun _ => pure _

theorem keepsArrays_mapMethods (hd : d.KeepsArrays) : (mapMethods d).KeepsArrays := by
  refine (((((hd.method ?_).method ?_).method ?_).method ?_).method ?_).method ?_ <;> intro target args
  · exact bind (ofExcept _) fun _ => bind (asMap target) fun _ => pure _
  · exact bind (ofExcept _) fun _ => bind (ofExcept _) fun _ =>
      bind (asMap target) fun _ => bind (setState _ _) fun _ => pure _
  · exact bind (asMap target) fun _ => bind (ofExcept _) fun _ => pure _
  · exact bind (ofExcept _) fun _ => bind (asMap target) fun _ => bind (setState _ _) fun _ => pure _
  · exact bind (asMap target) fun _ => pure _
  · exact bind (asMap target) fun _ => pure _

/-- A method that only computes. -/
theorem keepsArrays_ofPure (f : Value → List Value → Except HostFault Value) (target : Value) (args : List Value) :
    (Body.ofPure f target args).KeepsArrays := ofExcept _

theorem keepsArrays_objectClass : objectClass.KeepsArrays := by
  unfold objectClass
  refine ((ClassDecl.KeepsArrays.method ?_ ?_).method ?_).method ?_
  · exact (ClassDecl.KeepsArrays.ofName "kiln.lang.Object").congr rfl
  · exact fun target _ => bind (display target) fun _ => pure _
  · exact fun _ _ => pure _
  · exact fun _ _ => bind (ofExcept _) fun _ => pure _

theorem keepsArrays_stringClass : stringClass.KeepsArrays := by
  unfold stringClass
  refine ClassDecl.KeepsArrays.staticMethod ?_ fun _ _ => bind (ofExcept _) fun v => bind (display v) fun _ => pure _
  iterate 10 refine ClassDecl.KeepsArrays.method ?_ (keepsArrays_ofPure _)
  exact (ClassDecl.KeepsArrays.ofName "kiln.lang.String").congr rfl

theorem keepsArrays_numericBox (name : String) (own : Primitive) : (numericBox name own).KeepsArrays :=
  ((ClassDecl.KeepsArrays.ofName name).congr rfl).method (keepsArrays_ofPure _)

/-- **No method of a core class reaches an array.** -/
theorem keepsArrays : ∀ d ∈ classes, d.KeepsArrays := by
  have hnone : ∀ name, (ClassDecl.ofName name).KeepsArrays := ClassDecl.KeepsArrays.ofName
  have hnumber : numberClass.KeepsArrays :=
    (((hnone _).method (keepsArrays_ofPure _)).method (keepsArrays_ofPure _)).method (keepsArrays_ofPure _)
  have hboolean : booleanClass.KeepsArrays := by
    refine (((hnone "kiln.lang.Boolean").congr rfl).method fun target _ => ?_).method (keepsArrays_ofPure _)
    cases target with
    | bool b => exact pure _
    | _ => exact fail _
  have hcharacter : characterClass.KeepsArrays := by
    refine ((hnone "kiln.lang.Character").congr rfl).method fun target _ => ?_
    cases target with
    | char c => exact pure _
    | _ => exact fail _
  have hsequence : charSequence.KeepsArrays :=
    (((hnone "kiln.lang.CharSequence").congr rfl).method (keepsArrays_ofPure _)).method (keepsArrays_ofPure _)
  have hcomparable : comparable.KeepsArrays :=
    ((hnone "kiln.lang.Comparable").congr rfl).method (keepsArrays_ofPure _)
  unfold classes
  simp only [List.forall_mem_cons]
  refine ⟨keepsArrays_objectClass, hnumber, hboolean, hcharacter, keepsArrays_numericBox _ _,
    keepsArrays_numericBox _ _, (keepsArrays_numericBox _ _).congr rfl, (keepsArrays_numericBox _ _).congr rfl,
    keepsArrays_numericBox _ _, keepsArrays_numericBox _ _, hsequence, hcomparable, keepsArrays_stringClass, ?_, ?_, ?_,
    ?_, ?_, ?_, nofun⟩
  · exact (hnone "kiln.lang.Iterable").congr rfl
  · exact keepsArrays_collectionMethods ((hnone "kiln.util.Collection").congr rfl)
  · exact keepsArrays_listMethods ((hnone "kiln.util.List").congr rfl)
  · exact keepsArrays_mapMethods ((hnone "kiln.util.Map").congr rfl)
  · exact keepsArrays_listMethods ((hnone "kiln.util.ArrayList").congr rfl)
  · exact keepsArrays_mapMethods ((hnone "kiln.util.HashMap").congr rfl)

end Core

/-! ## Displaying -/

/-- Every way to display a value comes to one answer: what hosts call, the method that all values have, and the one
that makes a text of any value. -/
structure Heap.DisplaysAs (h : Heap) (v : Value) (answer : Except Halt String) : Prop where
  display : v.display h = (answer, h)
  toString : ∃ m ∈ Core.objectClass.methods, m.name = "toString" ∧ ∀ args,
    m.body v args h = (answer.map .string, h)
  valueOf : ∃ m ∈ Core.stringClass.methods, m.name = "valueOf" ∧ ∀ target args,
    m.body target (v :: args) h = (answer.map .string, h)

variable {h : Heap} {v : Value}

theorem Core.toString_mem : (⟨"toString", [], .string, .shown, fun target _ => return .string (← target.display)⟩ :
    MethodDecl) ∈ objectClass.methods :=
  List.mem_append_left _ (List.mem_append_left _ (List.mem_append_right _ (List.mem_singleton_self _)))

theorem Core.valueOf_mem : (⟨"valueOf", [.object], .string, Modifiers.shown.asStatic,
    fun _ args => return .string (← (← arg args 0).display)⟩ : MethodDecl) ∈ stringClass.methods :=
  List.mem_append_right _ (List.mem_singleton_self _)

/-- The text that is found for a value, or that there is no end, is what every way to display it answers. -/
theorem Heap.displaysAs_iff {answer : Except Halt String} :
    h.DisplaysAs v answer ↔ (h.display v).elim (.error .endless) .ok = answer := by
  constructor
  · intro hs
    have hdisplay := hs.display
    rw [v.display_apply] at hdisplay
    exact congrArg Prod.fst hdisplay
  · intro hanswer
    have hdisplay : v.display h = (answer, h) := by rw [v.display_apply, hanswer]
    have htext : (v.display >>= fun text => (Pure.pure (.string text) : Host Value)) h = (answer.map .string, h) := by
      rw [bind_apply, hdisplay]
      cases answer <;> rfl
    exact ⟨hdisplay, ⟨_, Core.toString_mem, rfl, fun _ => htext⟩, ⟨_, Core.valueOf_mem, rfl, fun _ _ => htext⟩⟩

/-- A value is displayed as its text. -/
theorem Heap.displaysAs_ok_iff {text : String} (hclosed : h.Closed) (hhas : h.Has v) :
    h.DisplaysAs v (.ok text) ↔ h.Shows v text := by
  rw [displaysAs_iff, ← display_eq_some_iff hclosed hhas]
  cases h.display v <;> simp

/-- Displaying a value has no end when the value leads to an array that contains itself. -/
theorem Heap.displaysAs_endless_iff (hclosed : h.Closed) (hhas : h.Has v) :
    h.DisplaysAs v (.error .endless) ↔ h.Cyclic v := by
  rw [displaysAs_iff, ← not_iff_not, ← exists_shows_iff hclosed hhas]
  simp only [← display_eq_some_iff hclosed hhas]
  cases h.display v <;> simp

/-! ## Deeds of a session -/

theorem Writer.heap_invoke {w : Writer} {i : Int32} (hroute : w.route = .list .array i) (a : ArrayRef) (v : Value)
    (h : Heap) : (w.invoke (.array a) v h).2 = h.after (.set a i v) := by
  rw [invoke_element hroute]
  exact congrArg Prod.snd (Access.host_writeElement a i v h)

theorem Writer.heap_tryInvoke {w : Writer} {i : Int32} (hroute : w.route = .list .array i) (a : ArrayRef)
    (key v : Value) (h : Heap) :
    (w.tryInvoke (.array a) key v h).2 = h.afterAll (if a.cls = w.cls then Deed.written a key v else []) := by
  unfold Writer.tryInvoke Deed.written
  rw [replay?_element hroute]
  split
  · cases key.toIndex? with
    | none => rfl
    | some j => exact (Access.attempt_writeElement a j v h).2
  · rfl

/-- A call of a method of a core class. -/
def Access.CallsCore : Access → Prop
  | .call m .. | .store m .. => ∃ d ∈ Core.classes, m.toMethodDecl ∈ d.methods
  | _ => False

theorem Access.keepsArrays_of_callsCore {x : Access} (hx : x.CallsCore) : x.host.KeepsArrays := by
  have hinvoke : ∀ (m : Method) target args, (∃ d ∈ Core.classes, m.toMethodDecl ∈ d.methods) →
      (m.invoke target args).KeepsArrays := by
    rintro m target args ⟨d, hd, hm⟩
    unfold Method.invoke
    split
    · exact .fail _
    · exact Core.keepsArrays d hd _ hm target args
  cases x with
  | call m target args => exact hinvoke m target args hx
  | store m target args v => exact (hinvoke m target args hx).bind fun _ => .pure v
  | _ => exact hx.elim

namespace Session

/-- Events of a session, and for each of them the deeds that it comes to, with values that are there. -/
def Does : Session → List (Event × List Deed) → Prop
  | _, [] => True
  | s, (e, deeds) :: rest => s.heap.Allows deeds ∧ (s.step e).heap = s.heap.afterAll deeds ∧ (s.step e).Does rest

variable {s : Session} {done : List (Event × List Deed)}

/-- What events come to, they come to together. -/
theorem Does.heap (hdoes : s.Does done) : s.heap.Allows (done.flatMap (·.2)) ∧
    (s.run (done.map (·.1))).heap = s.heap.afterAll (done.flatMap (·.2)) := by
  induction done generalizing s with
  | nil => exact ⟨trivial, rfl⟩
  | cons first rest ih =>
    obtain ⟨e, deeds⟩ := first
    obtain ⟨hallows, hheap, hrest⟩ := hdoes
    obtain ⟨hrest, hrun⟩ := ih hrest
    rw [hheap] at hrest hrun
    rw [List.flatMap_cons, Heap.allows_append, Heap.afterAll_append]
    exact ⟨⟨hallows, hrest⟩, hrun⟩

/-- An evaluation that runs methods of core classes only leaves all arrays alone. -/
theorem use_callsCore {i : Nat} {u : Use} (hcore : ∀ x ∈ s.ran i u, x.CallsCore) :
    ∃ states, (s.step (.use i u)).heap = s.heap.after (.objects states) := by
  have hafter : ∀ (xs : List Access) (h : Heap), (∀ x ∈ xs, x.CallsCore) → (Access.after h xs).arrays = h.arrays := by
    intro xs
    induction xs with
    | nil => exact fun _ _ => rfl
    | cons x rest ih =>
      intro h hxs
      obtain ⟨hx, hrest⟩ := List.forall_mem_cons.1 hxs
      exact (ih _ hrest).trans (Access.keepsArrays_of_callsCore hx h)
  have hheap : (s.step (.use i u)).heap = Access.after s.heap (s.ran i u) := s.use_heap i u
  refine ⟨(Access.after s.heap (s.ran i u)).objects, ?_⟩
  rw [hheap]
  unfold Heap.after
  rw [← hafter _ s.heap hcore]

/-- What is done to the heap at some time in a session, as deeds: making an array is one; a writer for elements that is
used or tried on an array comes to one or to none, and so does an evaluation that writes to an array; an evaluation that
runs methods of core classes leaves all arrays alone. -/
structure ComesToDeeds (s : Session) : Prop where
  newArray : ∀ {t items a r h}, s.registry.newArray s.heap t items = .ok (a, r, h) →
    h = s.heap.after (.newArray a.cls t items)
  invoke : ∀ {b : Writer} {j}, b.route = .list .array j → ∀ a v,
    (b.invoke (.array a) v s.heap).2 = s.heap.after (.set a j v)
  tryInvoke : ∀ {b : Writer} {j}, b.route = .list .array j → ∀ a key v,
    (b.tryInvoke (.array a) key v s.heap).2 = s.heap.afterAll (if a.cls = b.cls then Deed.written a key v else [])
  evaluate : ∀ {a}, s.registry.isArray a.cls = true → ∀ i n style key v,
    (s.step (.use i (.write n style (.array a) key v))).heap = s.heap.afterAll (Deed.written a key v)
  callsCore : ∀ {i u}, (∀ x ∈ s.ran i u, x.CallsCore) →
    ∃ states, (s.step (.use i u)).heap = s.heap.after (.objects states)

theorem comesToDeeds_run (policy : Nat → Policy) (strategy : Nat → Strategy) (heap : Heap) (es : List Event) :
    ((start policy strategy heap).run es).ComesToDeeds where
  newArray hok := (Registry.newArray_ok hok).2.2.2
  invoke hroute a v := Writer.heap_invoke hroute a v _
  tryInvoke hroute a key v := Writer.heap_tryInvoke hroute a key v _
  evaluate harray i n style key v := by
    have horderly := orderly_run policy strategy heap es
    have hwrites := writesElements_run policy strategy heap es
    obtain ⟨hnone, hsome⟩ := use_element horderly hwrites harray i n style key v
    unfold Deed.written
    cases hkey : key.toIndex? with
    | none => exact (hnone hkey).2
    | some j => exact (hsome hkey).2
  callsCore := use_callsCore

/-- **Which values can be displayed.** Let the events of a session do deeds to the heap: make arrays, write elements,
change objects. Then a value is displayed as its text, and without an end exactly if it leads to an array that contains
itself. All values can be displayed at all times exactly if no write puts into an array a value that leads to that
array. -/
theorem displays_iff (policy : Nat → Policy) (strategy : Nat → Strategy) (objects : List ObjectState)
    (done : List (Event × List Deed)) (h : (start policy strategy ⟨[], objects⟩).Does done) :
    let s := (start policy strategy ⟨[], objects⟩).run (done.map (·.1))
    let deeds := done.flatMap (·.2)
    let heapAfter := (Heap.mk [] objects).afterAll
    s.ComesToDeeds ∧
    (∀ v, s.heap.Has v →
      (∀ text, s.heap.DisplaysAs v (.ok text) ↔ s.heap.Shows v text) ∧
      (s.heap.DisplaysAs v (.error .endless) ↔ s.heap.Cyclic v)) ∧
    ((∀ before, before <+: deeds → ∀ v, (heapAfter before).Has v → ∃ text, (heapAfter before).DisplaysAs v (.ok text)) ↔
      ∀ before d, before ++ [d] <+: deeds → ¬d.Closes (heapAfter before)) := by
  intro s deeds heapAfter
  obtain ⟨hallows, hheap⟩ := h.heap
  have hclosed : ∀ before, before <+: deeds → (heapAfter before).Closed := by
    rintro before ⟨after, hdeeds⟩
    have hbefore : (Heap.mk [] objects).Allows (before ++ after) := by rwa [hdeeds]
    exact Heap.closed_afterAll (Heap.closed_mk_nil objects) (Heap.allows_append.1 hbefore).1
  refine ⟨comesToDeeds_run policy strategy _ _, fun v hhas => ?_, ?_⟩
  · have hclosed' : s.heap.Closed := hheap ▸ hclosed deeds (List.prefix_refl _)
    exact ⟨fun text => Heap.displaysAs_ok_iff hclosed' hhas, Heap.displaysAs_endless_iff hclosed' hhas⟩
  · rw [← Heap.acyclic_afterAll_iff (Heap.closed_mk_nil objects) (Heap.acyclic_mk_nil objects) hallows]
    refine forall₂_congr fun before hbefore => ?_
    rw [Heap.acyclic_iff (hclosed before hbefore)]
    refine forall₂_congr fun v hhas => exists_congr fun text => ?_
    exact Heap.displaysAs_ok_iff (hclosed before hbefore) hhas

/-- An array for one object, the first one that is made. -/
def box : ArrayRef := ⟨0, ⟨19⟩, .ofClass .object⟩

/-- The second one. -/
def letter : ArrayRef := ⟨1, ⟨19⟩, .ofClass .object⟩

/-- They are made, the first one empty, and a script puts a value into it. -/
def boxing (v : Value) : List (Event × List Deed) :=
  [(.change (.arrayClass (.ofClass .object)), []),
    (.host fun h => (h.newArray box.cls box.component [.null]).2, [.newArray box.cls box.component [.null]]),
    (.host fun h => (h.newArray letter.cls letter.component [.string "x"]).2,
      [.newArray letter.cls letter.component [.string "x"]]),
    (.use 0 (.write 0 .bracket (.array box) (.int 0) v), [.set box 0 v])]

theorem does_boxing (v : Value) (hhas : (Heap.mk [[.null], [.string "x"]] []).Has v) :
    (start (fun _ => .unrestricted) (fun _ => .pojo) ⟨[], []⟩).Does (boxing v) := by
  have hplain : ∀ (h : Heap) (w : Value), w.address? = none → ∀ v ∈ [w], h.Has v := by
    intro h w hw v hv n hn
    rw [List.mem_singleton.1 hv, hw] at hn
    cases hn
  exact ⟨trivial, rfl, ⟨hplain _ _ rfl, trivial⟩, rfl, ⟨hplain _ _ rfl, trivial⟩, rfl, ⟨hhas, trivial⟩, rfl, trivial⟩

/-- The second array is put into the first one, and shown inside it. -/
theorem displays_boxed :
    let s := (start (fun _ => .unrestricted) (fun _ => .pojo) ⟨[], []⟩).run ((boxing (.array letter)).map (·.1))
    (start (fun _ => .unrestricted) (fun _ => .pojo) ⟨[], []⟩).Does (boxing (.array letter)) ∧
      s.heap.Has (.array box) ∧ s.heap.DisplaysAs (.array box) (.ok "[[x]]") := by
  intro s
  have hhas : ∀ n < 2, s.heap.Has (.array ⟨n, ⟨19⟩, .ofClass .object⟩) := by
    intro n hn m hm
    rw [← Option.some.inj hm]
    exact hn
  have hdoes := does_boxing (.array letter) (hhas 1 (by decide))
  have hdisplay : s.heap.display (.array box) = some "[[x]]" := by decide +kernel
  obtain ⟨-, hdisplays, -⟩ := displays_iff (fun _ => .unrestricted) (fun _ => .pojo) [] (boxing (.array letter)) hdoes
  have hhas₀ := hhas 0 (by decide)
  exact ⟨hdoes, hhas₀, ((hdisplays (.array box) hhas₀).1 "[[x]]").2 (Heap.shows_of_displayWithin hdisplay)⟩

/-- The first array is put into itself, and then displaying it has no end. -/
theorem not_displays :
    ¬∀ (policy : Nat → Policy) (strategy : Nat → Strategy) (objects : List ObjectState)
      (done : List (Event × List Deed)), (start policy strategy ⟨[], objects⟩).Does done →
        ∀ v, ((start policy strategy ⟨[], objects⟩).run (done.map (·.1))).heap.Has v →
          ∃ text, ((start policy strategy ⟨[], objects⟩).run (done.map (·.1))).heap.DisplaysAs v (.ok text) := by
  intro hall
  have hhas : (Heap.mk [[.null], [.string "x"]] []).Has (.array box) := by
    intro n hn
    rw [← Option.some.inj hn]
    decide
  obtain ⟨text, hdisplays⟩ := hall (fun _ => .unrestricted) (fun _ => .pojo) [] (boxing (.array box))
    (does_boxing (.array box) hhas) (.array box) hhas
  rw [Heap.displaysAs_iff] at hdisplays
  cases hdisplays

end Session

end MemberAccess
