import MemberAccess.Proofs.Registry.Order

/-!
# What a registry answers for good

A **store** is a registry with the heap that its arrays live in. A host registers classes, asks for classes of
arrays, makes arrays and retires classes, in any order; every request is answered at once. Whatever was answered
stays true: classes are handed out one position after the other and never move or change, a type of components has
one class of arrays, and a class is retired once. A request that fails has done nothing.

* `Store.serve`, `Store.serveAll`: one request, and any number of them.
* `serveAll_registry`: to a registry, requests are changes.
* `Registry.Consistent`: what holds of a registry between two requests.
* `Reply.Lasting`: what the answer to a request says about every later store.
* `Store.serve_for_good`: answers last.
-/

namespace MemberAccess

structure Store where
  registry : Registry
  heap : Heap

/-- What a host asks of a store. -/
inductive Request where
  | register (d : ClassDecl)
  | arrayClass (component : Ty)
  | newArray (component : Ty) (items : List Value)
  | retire (c : ClassId)

/-- What it is answered: a class, an array, whether a class has been retired, or a failure. -/
inductive Reply where
  | cls (c : ClassId)
  | array (a : ArrayRef)
  | retired (done : Bool)
  | failed (f : HostFault)

namespace Store

/-- The core classes, and whatever is on the heap by then. -/
def start (heap : Heap) : Store := ⟨.initial, heap⟩

/-- The answer to a request, and the store afterwards. -/
def serve (s : Store) : Request → Reply × Store
  | .register d => match s.registry.register d with
    | .ok (c, r) => (.cls c, { s with registry := r })
    | .error f => (.failed f, s)
  | .arrayClass component =>
    let (c, r) := s.registry.arrayClass component
    (.cls c, { s with registry := r })
  | .newArray component items => match s.registry.newArray s.heap component items with
    | .ok (a, r, h) => (.array a, ⟨r, h⟩)
    | .error f => (.failed f, s)
  | .retire c =>
    let (done, r) := s.registry.retire c
    (.retired done, { s with registry := r })

def serveAll (s : Store) (qs : List Request) : Store := qs.foldl (fun s q => (s.serve q).2) s

end Store

variable {r r' : Registry} {s : Store} {c : ClassId} {d : ClassDef} {t : Ty}

/-! ## Requests are changes -/

/-- **An array that is made** has elements that were accepted, the next address, and the class of its component, which
is made when it has not been asked for before. -/
theorem Registry.newArray_ok {h h' : Heap} {items : List Value} {a : ArrayRef}
    (hok : r.newArray h t items = .ok (a, r', h')) : items.forM (ArrayRef.accepts t) = .ok () ∧
      a = ⟨h.arrays.length, (r.arrayClass t).1, t⟩ ∧ r' = (r.arrayClass t).2 ∧
      h' = { h with arrays := h.arrays ++ [items] } := by
  unfold newArray at hok
  cases hitems : items.forM (ArrayRef.accepts t) with
  | error f => simp [hitems, bind, Except.bind] at hok
  | ok =>
    simp only [hitems, bind, Except.bind, pure, Except.pure, Except.ok.injEq, Prod.mk.injEq] at hok
    obtain ⟨rfl, rfl, rfl⟩ := hok
    exact ⟨rfl, rfl, rfl, rfl⟩

namespace Store

/-- To the registry, a request is a change or nothing. -/
theorem serve_registry (s : Store) (q : Request) :
    ∃ changes, (s.serve q).2.registry = s.registry.applyAll changes := by
  cases q with
  | register d =>
    refine ⟨[.register d], ?_⟩
    simp only [serve, Registry.applyAll, List.foldl_cons, List.foldl_nil, Registry.apply]
    cases s.registry.register d <;> rfl
  | arrayClass t => exact ⟨[.arrayClass t], rfl⟩
  | newArray t items =>
    simp only [serve]
    cases hok : s.registry.newArray s.heap t items with
    | error f => exact ⟨[], rfl⟩
    | ok made =>
      obtain ⟨a, r', h'⟩ := made
      exact ⟨[.arrayClass t], (Registry.newArray_ok hok).2.2.1⟩
  | retire c => exact ⟨[.retire c], rfl⟩

/-- **To the registry, requests are changes.** -/
theorem serveAll_registry (s : Store) (qs : List Request) :
    ∃ changes, (s.serveAll qs).registry = s.registry.applyAll changes := by
  induction qs generalizing s with
  | nil => exact ⟨[], rfl⟩
  | cons q rest ih =>
    obtain ⟨first, hfirst⟩ := s.serve_registry q
    obtain ⟨others, hothers⟩ := ih (s.serve q).2
    refine ⟨first ++ others, ?_⟩
    rw [Registry.applyAll, List.foldl_append]
    change ((s.serve q).2.serveAll rest).registry = (s.registry.applyAll first).applyAll others
    rw [hothers, hfirst]

theorem growsTo_serve (s : Store) (q : Request) : s.registry.GrowsTo (s.serve q).2.registry := by
  obtain ⟨changes, h⟩ := s.serve_registry q
  rw [h]
  exact Registry.growsTo_applyAll _ changes

theorem growsTo_serveAll (s : Store) (qs : List Request) : s.registry.GrowsTo (s.serveAll qs).registry := by
  obtain ⟨changes, h⟩ := s.serveAll_registry qs
  rw [h]
  exact Registry.growsTo_applyAll _ changes

theorem serveAll_append (s : Store) (qs qs' : List Request) : s.serveAll (qs ++ qs') = (s.serveAll qs).serveAll qs' :=
  List.foldl_append

end Store

/-! ## Between two requests -/

/-- The classes that the members of a class name as the one that declares them. -/
def ClassDef.declarers (d : ClassDef) : List ClassId :=
  d.methods.map (·.declaring) ++ d.fields.map (·.declaring) ++ d.constructors.map (·.declaring)

theorem ClassDef.OwnsMembers.eq_of_mem_declarers {d : ClassDef} (h : d.OwnsMembers) {e : ClassId}
    (he : e ∈ d.declarers) : e = d.id := by
  unfold ClassDef.declarers at he
  simp only [List.mem_append, List.mem_map] at he
  rcases he with (⟨m, hm, rfl⟩ | ⟨f, hf, rfl⟩) | ⟨k, hk, rfl⟩
  · exact h.methods m hm
  · exact h.fields f hf
  · exact h.constructors k hk

namespace Registry

/-- What the tables of a registry have to do with one another. -/
structure Consistent (r : Registry) : Prop where
  /-- the positions below the size, and no others, are those of classes, which know them -/
  dense : ∀ {c : ClassId}, c.index < r.size ↔ ∃ d, r.class? c = some d ∧ d.id = c
  core : ∀ {c : ClassId}, c.isCore = true → ∃ d, initial.class? c = some d ∧ r.class? c = some d
  /-- a name leads to a class of that name -/
  name : ∀ {text c}, r.idOf? text = some c → ∃ d, r.class? c = some d ∧ d.qualifiedName = text
  /-- a type of components leads to a class of such arrays -/
  component : ∀ {t c}, r.arrayOf? t = some c → ∃ d, r.class? c = some d ∧ d.component = some t
  /-- the members of a class are alive as long as the class is -/
  member : ∀ {c d}, r.class? c = some d → ∀ e ∈ d.declarers, r.isAlive e = r.isAlive c
  /-- only a registered class is ever dead, so that a new one is alive -/
  dead : ∀ {c}, r.isAlive c = false → c.index < r.size

/-- Only registered classes have been retired. -/
def RetiresKnown (r : Registry) : Prop := ∀ c ∈ r.retired, c.index < r.size

theorem retiresKnown_apply (h : r.RetiresKnown) (change : Change) : (r.apply change).RetiresKnown := by
  have hpush : ∀ make, (r.push make).RetiresKnown := by
    intro make c hc
    rw [size_push]
    exact Nat.lt_succ_of_lt (h c hc)
  rcases apply_cases r change with e | ⟨d, -, -, -, -, e⟩ | ⟨t, -, -, e⟩ | ⟨c, -, hknown, -, e⟩ <;> rw [e]
  · exact h
  · exact hpush _
  · exact hpush _
  · -- the class that is retired is one that is there
    obtain ⟨d, hd⟩ := Option.isSome_iff_exists.1 hknown
    intro c' hc'
    rcases List.mem_cons.1 hc' with rfl | hc'
    · exact index_lt hd
    · exact h c' hc'

theorem retiresKnown_applyAll (h : r.RetiresKnown) (changes : List Change) : (r.applyAll changes).RetiresKnown := by
  induction changes generalizing r with
  | nil => exact h
  | cons change rest ih => exact ih (retiresKnown_apply h change)

/-- The class that stands for a type of components has that component. -/
theorem Proper.component_of_arrayOf? (hp : r.Proper) (h : r.arrayOf? t = some c) :
    ∃ d, r.class? c = some d ∧ d.component = some t := by
  obtain ⟨d, hfind, rfl⟩ := Option.map_eq_some_iff.1 h
  obtain ⟨c', hd⟩ := mem_classes_iff.1 (List.mem_of_find?_eq_some hfind)
  have hcomponent : d.component = some t := by simpa using List.find?_some hfind
  refine ⟨d, ?_, hcomponent⟩
  rw [hp.id hd]
  exact hd

/-- Once it has been made, a class of arrays stands for its component for ever. -/
theorem GrowsTo.arrayOf? (hr : r.GrowsTo r') (h : r.arrayOf? t = some c) : r'.arrayOf? t = some c := by
  obtain ⟨d, hfind, rfl⟩ := Option.map_eq_some_iff.1 h
  obtain ⟨more, hmore⟩ := hr.classes
  unfold Registry.arrayOf?
  rw [← hmore, List.find?_append, hfind]
  rfl

theorem consistent (hp : r.Proper) (hinit : initial.GrowsTo r) (hretired : r.RetiresKnown) : r.Consistent where
  dense {c} := by
    constructor
    · intro hc
      obtain ⟨d, hd⟩ := exists_class hc
      exact ⟨d, hd, hp.id hd⟩
    · rintro ⟨d, hd, -⟩
      exact index_lt hd
  core {c} hcore := by
    have hc : c.index < initial.size := by
      unfold ClassId.isCore at hcore
      exact Nat.lt_of_lt_of_le (by simpa using hcore) (by decide)
    obtain ⟨d, hd⟩ := exists_class hc
    exact ⟨d, hd, hinit.class?_some hd⟩
  name {c text} h := by
    obtain ⟨d, hnamed, rfl⟩ := Option.map_eq_some_iff.1 h
    obtain ⟨hname, c', hd⟩ := named?_some hnamed
    rw [hp.id hd]
    exact ⟨d, hd, hname⟩
  component h := hp.component_of_arrayOf? h
  member {c d} hd e he := by
    rw [(hp.owns hd).eq_of_mem_declarers he, hp.id hd]
  dead {c} h := by
    apply hretired
    simpa [isAlive] using h

end Registry

namespace Store

/-- **A store that is served from the start** has a registry that is proper, holds the core classes, and has
retired classes that are there. -/
theorem served (heap : Heap) (qs : List Request) :
    let r := ((start heap).serveAll qs).registry
    r.Proper ∧ Registry.initial.GrowsTo r ∧ r.RetiresKnown := by
  intro r
  obtain ⟨changes, h⟩ := (start heap).serveAll_registry qs
  have hr : r = Registry.initial.applyAll changes := h
  rw [hr]
  exact ⟨Registry.proper_applyAll Registry.proper_initial changes, Registry.growsTo_applyAll _ changes,
    Registry.retiresKnown_applyAll (fun c hc => by cases hc) changes⟩

/-! ## Answers that last -/

/-- A type of components has a class of its own in the store, which no other type has. -/
structure KeepsArrays (s : Store) (t : Ty) (c : ClassId) : Prop where
  component : ∃ d, s.registry.class? c = some d ∧ d.component = some t
  only : ∀ t', (s.serve (.arrayClass t')).1 = .cls c ↔ t' = t

/-- A class that stands for a component is kept. -/
theorem keepsArrays (hp : s.registry.Proper) (h : s.registry.arrayOf? t = some c) : s.KeepsArrays t c := by
  obtain ⟨d, hd, hcomponent⟩ := hp.component_of_arrayOf? h
  refine ⟨⟨d, hd, hcomponent⟩, fun t' => ?_⟩
  have hanswer : (s.serve (.arrayClass t')).1 = .cls (s.registry.arrayClass t').1 := rfl
  rw [hanswer, Reply.cls.injEq]
  rcases s.registry.arrayClass_cases t' with ⟨c', hc', e⟩ | ⟨hnone, e⟩ <;> rw [e]
  · constructor
    · rintro rfl
      -- one class has one component
      obtain ⟨d', hd', hcomponent'⟩ := hp.component_of_arrayOf? hc'
      rw [hd] at hd'
      cases hd'
      rw [hcomponent] at hcomponent'
      exact (Option.some.inj hcomponent').symm
    · rintro rfl
      rw [h] at hc'
      exact (Option.some.inj hc').symm
  · constructor
    · -- a class that is made now is none of those that are there
      rintro rfl
      exact absurd (Registry.index_lt hd) (Nat.lt_irrefl _)
    · rintro rfl
      rw [h] at hnone
      cases hnone

/-- After it has been asked for, the class of a component stands for it. -/
theorem arrayOf?_arrayClass (r : Registry) (t : Ty) : (r.arrayClass t).2.arrayOf? t = some (r.arrayClass t).1 := by
  rcases r.arrayClass_cases t with ⟨c, hc, e⟩ | ⟨hnone, e⟩ <;> rw [e]
  · exact hc
  · have hold : r.classes.find? (·.component = some t) = none := Option.map_eq_none_iff.1 hnone
    unfold Registry.arrayOf? Registry.push
    rw [List.find?_append, hold]
    simp [ClassDef.ofArray]

end Store

/-- What the answer to a request says: about the store `after` it, when `before` was the one before it, and about any
`later` one. -/
structure Reply.Lasting (q : Request) (reply : Reply) (before after later : Store) : Prop where
  /-- a failure has done nothing -/
  failed : ∀ {f}, reply = .failed f → after = before
  /-- a class that is registered takes the next position, is alive, and stays there as it was declared -/
  registered : ∀ {d c}, q = .register d → reply = .cls c → c = before.registry.next ∧
    after.registry.isAlive c = true ∧ later.registry.class? c = some (.ofDecl c d)
  arrayClass : ∀ {t}, q = .arrayClass t → ∃ c, reply = .cls c ∧ later.KeepsArrays t c
  newArray : ∀ {t items a}, q = .newArray t items → reply = .array a → later.KeepsArrays t a.cls
  /-- a class that is retired was alive, is dead, and is not retired a second time -/
  retired : ∀ {c}, q = .retire c → reply = .retired true → before.registry.isAlive c = true ∧
    later.registry.isAlive c = false ∧ (later.serve (.retire c)).1 = .retired false

namespace Store

theorem failed_serve {f : HostFault} {q : Request} (h : (s.serve q).1 = .failed f) : (s.serve q).2 = s := by
  cases q with
  | register d =>
    simp only [serve] at h ⊢
    cases hr : s.registry.register d with
    | error f => rfl
    | ok => rw [hr] at h; cases h
  | newArray t items =>
    simp only [serve] at h ⊢
    cases hr : s.registry.newArray s.heap t items with
    | error f => rfl
    | ok => rw [hr] at h; cases h
  | arrayClass | retire => cases h

/-- A class that has come in is the next one, as it was declared. -/
theorem registered_serve {d' : ClassDecl} (h : (s.serve (.register d')).1 = .cls c) : c = s.registry.next ∧
    (s.serve (.register d')).2.registry = s.registry.push (.ofDecl · d') := by
  simp only [serve] at h ⊢
  cases hr : s.registry.register d' with
  | error f => rw [hr] at h; cases h
  | ok answer =>
    obtain ⟨c', r⟩ := answer
    rw [hr] at h
    cases h
    obtain ⟨-, -, -, hc, hpush⟩ := Registry.register_ok hr
    exact ⟨hc, hpush⟩

/-- A class that is dead is not retired. -/
theorem retire_of_dead (h : s.registry.isAlive c = false) : (s.serve (.retire c)).1 = .retired false := by
  have hanswer : (s.serve (.retire c)).1 = .retired (s.registry.retire c).1 := rfl
  rcases s.registry.retire_cases c with ⟨-, halive, -⟩ | e
  · rw [halive] at h
    cases h
  · rw [hanswer, e]

theorem lasting_serve (hretired : s.registry.RetiresKnown) (q : Request) {later : Store}
    (hlater : later.registry.Proper) (hr : (s.serve q).2.registry.GrowsTo later.registry) :
    Reply.Lasting q (s.serve q).1 s (s.serve q).2 later where
  failed h := failed_serve h
  registered {d c} hq h := by
    subst hq
    obtain ⟨rfl, hpush⟩ := registered_serve h
    rw [hpush] at hr ⊢
    refine ⟨rfl, ?_, hr.class?_some (by simp [Registry.class?, Registry.push, Registry.next, Registry.size])⟩
    cases halive : (s.registry.push (.ofDecl · d)).isAlive s.registry.next with
    | true => rfl
    | false =>
      have hdead : s.registry.next ∈ s.registry.retired := by simpa [Registry.isAlive, Registry.push] using halive
      exact absurd (hretired _ hdead) (Nat.lt_irrefl _)
  arrayClass {t} hq := by
    subst hq
    exact ⟨_, rfl, keepsArrays hlater (hr.arrayOf? (arrayOf?_arrayClass s.registry t))⟩
  newArray {t items a} hq h := by
    subst hq
    simp only [serve] at h hr
    cases hok : s.registry.newArray s.heap t items with
    | error f => rw [hok] at h; cases h
    | ok made =>
      obtain ⟨a', r', h'⟩ := made
      rw [hok] at h hr
      cases h
      obtain ⟨-, rfl, rfl, -⟩ := Registry.newArray_ok hok
      exact keepsArrays hlater (hr.arrayOf? (arrayOf?_arrayClass s.registry t))
  retired {c} hq h := by
    subst hq
    have hanswer : Reply.retired (s.registry.retire c).1 = .retired true := h
    rcases s.registry.retire_cases c with ⟨-, halive, e⟩ | e
    · have hdead : later.registry.isAlive c = false := by
        apply hr.dead
        change (s.registry.retire c).2.isAlive c = false
        rw [e]
        simp [Registry.isAlive]
      exact ⟨halive, hdead, retire_of_dead hdead⟩
    · rw [e] at hanswer
      cases hanswer

/-- **Answers last.** Take a store that has been served any requests from the start, one more request to it, and
any requests after that one. Its registry is consistent at the first moment; at the last one it still has every
class where it was, and no class alive that was dead; and what was answered in between holds. -/
theorem serve_for_good (heap : Heap) (before : List Request) (q : Request) (after : List Request) :
    let s := (start heap).serveAll before
    let (reply, s') := s.serve q
    let later := s'.serveAll after
    s.registry.Consistent ∧
      (∀ c d, s.registry.class? c = some d → later.registry.class? c = some d) ∧
      (∀ c, s.registry.isAlive c = false → later.registry.isAlive c = false) ∧
      reply.Lasting q s s' later := by
  intro s
  obtain ⟨hp, hinit, hretired⟩ := served heap before
  have hgrows : s.registry.GrowsTo ((s.serve q).2.serveAll after).registry :=
    (s.growsTo_serve q).trans ((s.serve q).2.growsTo_serveAll after)
  -- the later store is served from the start as well
  have hlater : ((s.serve q).2.serveAll after).registry.Proper := by
    have hall := (served heap (before ++ q :: after)).1
    rwa [serveAll_append] at hall
  exact ⟨Registry.consistent hp hinit hretired, fun c d => hgrows.class?_some, fun c => hgrows.dead,
    lasting_serve hretired q hlater (growsTo_serveAll _ after)⟩

end Store

end MemberAccess
