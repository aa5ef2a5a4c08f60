import MemberAccess.Proofs.Registry.Distance
import MemberAccess.Proofs.Registry.Store

/-!
# Classes by their names

A name leads to the last class that has it. A class is registered under a name that is free, so it stands in the way
of no other class. A class of arrays is different: its name is the one of its component with two brackets, and it
takes that name over from whatever class has it. Those are the only moments at which a class stops being found.

* `Registry.Finds`: a name leads to the class that has it, `Registry.FindsAll`: for every class.
* `Store.TakesOver`: a request makes a class of arrays of some name; `Store.SparesNames`: only of a free one.
* `Store.finds_serve`, `Store.finds_serveAll`: a class is found until its name is taken over, and never again.
* `Store.findsAll_of_plain`: all classes are found, if none is declared with brackets at the end of its name.
* `Store.names_serveAll`: when the classes of a store are told apart by their names.
-/

namespace MemberAccess

variable {r r' : Registry} {s : Store} {c c' : ClassId} {d d' : ClassDef} {t : Ty} {name : String}

namespace Registry

/-! ## The class that a name leads to -/

/-- The name of a class leads to it, and to its identity. -/
def Finds (r : Registry) (d : ClassDef) : Prop :=
  r.named? d.qualifiedName = some d ∧ r.idOf? d.qualifiedName = some d.id

theorem finds_iff_named? : r.Finds d ↔ r.named? d.qualifiedName = some d := by
  unfold Finds idOf?
  constructor
  · exact And.left
  · intro h
    exact ⟨h, by rw [h]; rfl⟩

theorem named?_push {make : ClassId → ClassDef} :
    (r.push make).named? name =
      if (make r.next).qualifiedName = name then some (make r.next) else r.named? name := by
  unfold named? push
  rw [List.reverse_append, List.reverse_singleton, List.singleton_append, List.find?_cons]
  by_cases h : (make r.next).qualifiedName = name <;> simp [h]

/-- After the class that a name leads to, no class has that name. -/
theorem Proper.qualifiedName_ne_of_named? (hp : r.Proper) (hd : r.class? c = some d) (h : r.named? name = some d)
    (hd' : r.class? c' = some d') (hlt : c.index < c'.index) : d'.qualifiedName ≠ name := by
  obtain ⟨-, later, earlier, hsplit, hlater⟩ := List.find?_eq_some_iff_append.1 h
  have hclasses : r.classes = earlier.reverse ++ d :: later.reverse := by
    rw [← List.reverse_reverse r.classes, hsplit]
    simp
  -- a class knows its position, so this is the one place where it stands
  have hposition : c.index = earlier.length := by
    have hat : r.class? ⟨earlier.length⟩ = some d := by
      unfold class?
      rw [hclasses, List.getElem?_append_right (by simp)]
      simp
    have hid : c = ⟨earlier.length⟩ := (hp.id hd).symm.trans (hp.id hat)
    rw [hid]
  have hmem : d' ∈ later := by
    unfold class? at hd'
    rw [hclasses, List.getElem?_append_right (by rw [List.length_reverse]; omega), List.getElem?_cons] at hd'
    rw [if_neg (by rw [List.length_reverse]; omega)] at hd'
    exact List.mem_reverse.1 (List.mem_of_getElem? hd')
  simpa using hlater d' hmem

/-- **A class is found when no later class has its name.** -/
theorem Proper.finds_iff (hp : r.Proper) (hd : r.class? c = some d) : r.Finds d ↔
    ∀ c' d', r.class? c' = some d' → c.index < c'.index → d'.qualifiedName ≠ d.qualifiedName := by
  rw [finds_iff_named?]
  constructor
  · intro h c' d' hd' hlt
    exact hp.qualifiedName_ne_of_named? hd h hd' hlt
  · intro h
    cases hnamed : r.named? d.qualifiedName with
    | none => exact absurd rfl (named?_eq_none_iff.1 hnamed d (mem_classes_iff.2 ⟨c, hd⟩))
    | some e =>
      -- the name leads to some class, which is neither earlier nor later
      obtain ⟨hname, c', he⟩ := named?_some hnamed
      rcases Nat.lt_trichotomy c.index c'.index with hlt | heq | hgt
      · exact absurd hname (h c' e he hlt)
      · have hcc : c = c' := by cases c; cases c'; simpa using heq
        rw [hcc, he] at hd
        rw [Option.some.inj hd]
      · exact absurd rfl (hp.qualifiedName_ne_of_named? he hnamed hd hgt)

/-- A registry in which classes and names belong together one to one. -/
structure FindsAll (r : Registry) : Prop where
  unique : ∀ {c c' d d'}, r.class? c = some d → r.class? c' = some d' → d.qualifiedName = d'.qualifiedName → c = c'
  found : ∀ {c d}, r.class? c = some d → r.named? d.qualifiedName = some d ∧ r.idOf? d.qualifiedName = some c

/-- It is enough that every class is found. -/
theorem Proper.findsAll_iff (hp : r.Proper) : r.FindsAll ↔ ∀ c d, r.class? c = some d → r.Finds d := by
  constructor
  · intro h c d hd
    exact finds_iff_named?.2 (h.found hd).1
  · intro h
    refine ⟨?_, ?_⟩
    · intro c c' d d' hd hd' hname
      have hnamed : r.named? d.qualifiedName = some d := (h c d hd).1
      rw [hname, (h c' d' hd').1] at hnamed
      rw [← hp.id hd, ← hp.id hd', Option.some.inj hnamed]
    · intro c d hd
      have hid : d.id = c := hp.id hd
      rw [← hid]
      exact h c d hd

theorem findsAll_initial : initial.FindsAll := by
  refine proper_initial.findsAll_iff.2 fun c d hd => (proper_initial.finds_iff hd).2 ?_
  intro c' d' hd' hlt hname
  -- all of them are declared, and those have names of their own
  obtain ⟨decl, rfl⟩ := class?_initial hd
  obtain ⟨decl', rfl⟩ := class?_initial hd'
  have hsame : ClassDef.ofDecl c decl = .ofDecl c' decl' := proper_initial.names hd hd' rfl rfl hname.symm
  have hid : c = c' := congrArg ClassDef.id hsame
  rw [hid] at hlt
  exact absurd hlt (Nat.lt_irrefl _)

/-- The class that has just come in is found, and of the others each that has another name and was found before. -/
theorem Proper.finds_push (hp : r.Proper) {make : ClassId → ClassDef} (hd : r.class? c = some d)
    (hid : (make r.next).id = r.next) :
    (r.push make).Finds d ↔ r.Finds d ∧ (make r.next).qualifiedName ≠ d.qualifiedName := by
  rw [finds_iff_named?, finds_iff_named?, named?_push]
  have hne : make r.next ≠ d := by
    intro heq
    have hsame : r.next = c := by rw [← hid, heq, hp.id hd]
    have hlt : c.index < r.size := index_lt hd
    rw [← hsame] at hlt
    exact absurd hlt (Nat.lt_irrefl _)
  by_cases hname : (make r.next).qualifiedName = d.qualifiedName <;> simp [hname, hne]

end Registry

/-! ## Names that are taken over -/

namespace Store

/-- A request makes the class of a type of components that had none. -/
def MakesArrayOf (s : Store) (q : Request) (t : Ty) : Prop :=
  s.registry.arrayOf? t = none ∧
    (q = .arrayClass t ∨ ∃ items, q = .newArray t items ∧ items.forM (ArrayRef.accepts t) = .ok ())

/-- A request makes a class of arrays, and it gets this name. -/
def TakesOver (s : Store) (q : Request) (name : String) : Prop :=
  ∃ t, s.MakesArrayOf q t ∧ s.registry.typeName t ++ "[]" = name

/-- A request makes one class of arrays at most. -/
theorem MakesArrayOf.eq {t t' : Ty} {q : Request} (h : s.MakesArrayOf q t) (h' : s.MakesArrayOf q t') : t = t' := by
  obtain ⟨-, rfl | ⟨items, rfl, -⟩⟩ := h <;> obtain ⟨-, h' | ⟨items', h', -⟩⟩ := h' <;> cases h' <;> rfl

theorem takesOver_iff {q : Request} (h : s.MakesArrayOf q t) :
    s.TakesOver q name ↔ s.registry.typeName t ++ "[]" = name := by
  constructor
  · rintro ⟨t', h', rfl⟩
    rw [h.eq h']
  · intro hname
    exact ⟨t, h, hname⟩

/-- **What a request does to the classes**: nothing, or it adds one under a name that is free, or it adds a class of
arrays. -/
theorem serve_classes (s : Store) (q : Request) :
    ((s.serve q).2.registry.classes = s.registry.classes ∧ ∀ t, ¬s.MakesArrayOf q t) ∨
    (∃ d, q = .register d ∧ s.registry.named? d.qualifiedName = none ∧
      (s.serve q).2.registry = s.registry.push (.ofDecl · d)) ∨
    (∃ t, s.MakesArrayOf q t ∧
      (s.serve q).2.registry = s.registry.push (.ofArray · (s.registry.typeName t ++ "[]") t)) := by
  cases q with
  | register d =>
    have hmakes : ∀ t, ¬s.MakesArrayOf (.register d) t := by rintro t ⟨-, h | ⟨items, h, -⟩⟩ <;> cases h
    simp only [serve]
    cases hr : s.registry.register d with
    | error f => exact Or.inl ⟨rfl, hmakes⟩
    | ok answer =>
      obtain ⟨hfree, -, -, -, hpush⟩ := Registry.register_ok hr
      exact Or.inr (Or.inl ⟨d, rfl, hfree, hpush⟩)
  | arrayClass t =>
    simp only [serve]
    rcases s.registry.arrayClass_cases t with ⟨c, hc, e⟩ | ⟨hnone, e⟩ <;> rw [e]
    · refine Or.inl ⟨rfl, ?_⟩
      rintro t' ⟨hnone, h | ⟨items, h, -⟩⟩ <;> cases h
      rw [hc] at hnone
      cases hnone
    · exact Or.inr (Or.inr ⟨t, ⟨hnone, Or.inl rfl⟩, rfl⟩)
  | newArray t items =>
    simp only [serve, Registry.newArray]
    cases hitems : items.forM (ArrayRef.accepts t) with
    | error f =>
      refine Or.inl ⟨rfl, ?_⟩
      rintro t' ⟨-, h | ⟨items', h, hok⟩⟩ <;> cases h
      rw [hitems] at hok
      cases hok
    | ok accepted =>
      simp only [bind, Except.bind, pure, Except.pure]
      rcases s.registry.arrayClass_cases t with ⟨c, hc, e⟩ | ⟨hnone, e⟩ <;> rw [e]
      · refine Or.inl ⟨rfl, ?_⟩
        rintro t' ⟨hnone, h | ⟨items', h, -⟩⟩ <;> cases h
        rw [hc] at hnone
        cases hnone
      · exact Or.inr (Or.inr ⟨t, ⟨hnone, Or.inr ⟨items, rfl, hitems⟩⟩, rfl⟩)
  | retire c =>
    have hmakes : ∀ t, ¬s.MakesArrayOf (.retire c) t := by rintro t ⟨-, h | ⟨items, h, -⟩⟩ <;> cases h
    refine Or.inl ⟨?_, hmakes⟩
    simp only [serve]
    rcases s.registry.retire_cases c with ⟨-, -, e⟩ | e <;> rw [e]

theorem proper_serve (hp : s.registry.Proper) (q : Request) : (s.serve q).2.registry.Proper := by
  obtain ⟨changes, h⟩ := s.serve_registry q
  rw [h]
  exact Registry.proper_applyAll hp changes

/-- **A class is found after a request** when it was found before and the request does not take its name over. -/
theorem finds_serve (hp : s.registry.Proper) (hd : s.registry.class? c = some d) (q : Request) :
    (s.serve q).2.registry.Finds d ↔ s.registry.Finds d ∧ ¬s.TakesOver q d.qualifiedName := by
  rcases s.serve_classes q with ⟨hsame, hnone⟩ | ⟨decl, rfl, hfree, hpush⟩ | ⟨t, hmakes, hpush⟩
  · have hnot : ¬s.TakesOver q d.qualifiedName := fun ⟨t, ht, _⟩ => hnone t ht
    have hnamed : (s.serve q).2.registry.named? d.qualifiedName = s.registry.named? d.qualifiedName := by
      unfold Registry.named?
      rw [hsame]
    rw [Registry.finds_iff_named?, Registry.finds_iff_named?, hnamed]
    exact ⟨fun h => ⟨h, hnot⟩, And.left⟩
  · rw [hpush, hp.finds_push hd rfl]
    have hnot : ¬s.TakesOver (.register decl) d.qualifiedName := by
      rintro ⟨t, ⟨-, h | ⟨items, h, -⟩⟩, -⟩ <;> cases h
    -- the new class came in under a name that no class had
    have hother : d.qualifiedName ≠ decl.qualifiedName :=
      Registry.named?_eq_none_iff.1 hfree d (Registry.mem_classes_iff.2 ⟨c, hd⟩)
    exact ⟨fun h => ⟨h.1, hnot⟩, fun h => ⟨h.1, fun hname => hother hname.symm⟩⟩
  · have hname : (ClassDef.ofArray s.registry.next (s.registry.typeName t ++ "[]") t).qualifiedName =
        s.registry.typeName t ++ "[]" := rfl
    rw [hpush, hp.finds_push hd rfl, takesOver_iff hmakes, hname]

/-- Every request of a series is such that something holds of it at the moment when it is served. -/
def Throughout (s : Store) (holds : Store → Request → Prop) (qs : List Request) : Prop :=
  ∀ before q after, qs = before ++ q :: after → holds (s.serveAll before) q

theorem throughout_nil {holds : Store → Request → Prop} : s.Throughout holds [] := by
  intro before q after h
  simp at h

theorem throughout_cons {holds : Store → Request → Prop} {q : Request} {qs : List Request} :
    s.Throughout holds (q :: qs) ↔ holds s q ∧ (s.serve q).2.Throughout holds qs := by
  constructor
  · intro h
    refine ⟨h [] q qs rfl, ?_⟩
    rintro before q' after rfl
    exact h (q :: before) q' after rfl
  · rintro ⟨hfirst, hrest⟩ before q' after hsplit
    cases before with
    | nil =>
      cases hsplit
      exact hfirst
    | cons q'' before =>
      cases hsplit
      exact hrest before q' after rfl

/-- **A class is found for as long as its name is not taken over**, and once it has been, never again. -/
theorem finds_serveAll (hp : s.registry.Proper) (hd : s.registry.class? c = some d) (qs : List Request) :
    (s.serveAll qs).registry.Finds d ↔
      s.registry.Finds d ∧ s.Throughout (fun s q => ¬s.TakesOver q d.qualifiedName) qs := by
  induction qs generalizing s with
  | nil => exact ⟨fun h => ⟨h, throughout_nil⟩, And.left⟩
  | cons q qs ih =>
    have hd' : (s.serve q).2.registry.class? c = some d := (s.growsTo_serve q).class?_some hd
    have hrest : (s.serveAll (q :: qs)).registry.Finds d ↔ (s.serve q).2.registry.Finds d ∧
        (s.serve q).2.Throughout (fun s q => ¬s.TakesOver q d.qualifiedName) qs := ih (proper_serve hp q) hd'
    rw [hrest, finds_serve hp hd q, throughout_cons, and_assoc]

/-! ## Classes of one name -/

/-- A class that comes in is found at once. -/
theorem finds_of_new {q : Request} (hold : s.registry.class? c = none)
    (hnew : (s.serve q).2.registry.class? c = some d) : (s.serve q).2.registry.Finds d := by
  have hpush : ∀ make : ClassId → ClassDef, (s.serve q).2.registry = s.registry.push make →
      (s.serve q).2.registry.Finds d := by
    intro make hr
    rw [hr] at hnew ⊢
    rcases Registry.class?_push hnew with hd | ⟨-, rfl⟩
    · rw [hold] at hd
      cases hd
    · rw [Registry.finds_iff_named?, Registry.named?_push, if_pos rfl]
  rcases s.serve_classes q with ⟨hsame, -⟩ | ⟨decl, -, -, h⟩ | ⟨t, -, h⟩
  · have hd : s.registry.class? c = some d := by
      unfold Registry.class? at hnew ⊢
      rw [← hsame, hnew]
    rw [hold] at hd
    cases hd
  · exact hpush _ h
  · exact hpush _ h

/-- A request takes no name over that a class has. -/
def SparesNames (s : Store) (q : Request) : Prop := ∀ name, s.TakesOver q name → s.registry.named? name = none

/-- **Classes and names stay together** through a request that takes no name over that a class has. -/
theorem findsAll_serve (hp : s.registry.Proper) (q : Request) :
    (s.serve q).2.registry.FindsAll ↔ s.registry.FindsAll ∧ s.SparesNames q := by
  rw [(proper_serve hp q).findsAll_iff, hp.findsAll_iff]
  constructor
  · intro h
    have hboth : ∀ c d, s.registry.class? c = some d → s.registry.Finds d ∧ ¬s.TakesOver q d.qualifiedName := by
      intro c d hd
      exact (finds_serve hp hd q).1 (h c d ((s.growsTo_serve q).class?_some hd))
    refine ⟨fun c d hd => (hboth c d hd).1, ?_⟩
    intro name htakes
    cases hnamed : s.registry.named? name with
    | none => rfl
    | some d =>
      obtain ⟨rfl, c, hd⟩ := Registry.named?_some hnamed
      exact absurd htakes (hboth c d hd).2
  · rintro ⟨hfinds, hspares⟩ c d hnew
    cases hold : s.registry.class? c with
    | none => exact finds_of_new hold hnew
    | some e =>
      have hsame : e = d := by
        have hkept := (s.growsTo_serve q).class?_some hold
        rw [hnew] at hkept
        exact (Option.some.inj hkept).symm
      subst hsame
      refine (finds_serve hp hold q).2 ⟨hfinds c e hold, fun htakes => ?_⟩
      exact Registry.named?_eq_none_iff.1 (hspares _ htakes) e (Registry.mem_classes_iff.2 ⟨c, hold⟩) rfl

theorem findsAll_serveAll (hp : s.registry.Proper) (qs : List Request) :
    (s.serveAll qs).registry.FindsAll ↔ s.registry.FindsAll ∧ s.Throughout SparesNames qs := by
  induction qs generalizing s with
  | nil => exact ⟨fun h => ⟨h, throughout_nil⟩, And.left⟩
  | cons q qs ih =>
    have hrest : (s.serveAll (q :: qs)).registry.FindsAll ↔
        (s.serve q).2.registry.FindsAll ∧ (s.serve q).2.Throughout SparesNames qs := ih (proper_serve hp q)
    rw [hrest, findsAll_serve hp q, throughout_cons, and_assoc]

end Store

/-- Of two classes with one name, the later one is a class of arrays. -/
def Registry.LaterIsArray (r : Registry) : Prop :=
  ∀ c c' d d', r.class? c = some d → r.class? c' = some d' → d.qualifiedName = d'.qualifiedName →
    c.index < c'.index → d'.isArray = true

namespace Store

theorem laterIsArray_push {make : ClassId → ClassDef} (h : r.LaterIsArray)
    (hmake : (make r.next).isArray = true ∨ r.named? (make r.next).qualifiedName = none) :
    (r.push make).LaterIsArray := by
  intro c c' d d' hd hd' hname hlt
  rcases Registry.class?_push hd' with hold' | ⟨rfl, rfl⟩
  · rcases Registry.class?_push hd with hold | ⟨rfl, -⟩
    · exact h c c' d d' hold hold' hname hlt
    · exact absurd (Nat.lt_trans hlt (Registry.index_lt hold')) (Nat.lt_irrefl _)
  · rcases hmake with harray | hfree
    · exact harray
    · -- a class that is declared comes in under a name that no class has
      rcases Registry.class?_push hd with hold | ⟨rfl, -⟩
      · exact absurd hname (Registry.named?_eq_none_iff.1 hfree d (Registry.mem_classes_iff.2 ⟨c, hold⟩))
      · exact absurd hlt (Nat.lt_irrefl _)

theorem laterIsArray_serve (h : s.registry.LaterIsArray) (q : Request) : (s.serve q).2.registry.LaterIsArray := by
  rcases s.serve_classes q with ⟨hsame, -⟩ | ⟨d, -, hfree, e⟩ | ⟨t, -, e⟩
  · intro c c' d d' hd hd' hname hlt
    unfold Registry.class? at hd hd'
    rw [hsame] at hd hd'
    exact h c c' d d' hd hd' hname hlt
  · rw [e]
    exact laterIsArray_push h (Or.inr hfree)
  · rw [e]
    exact laterIsArray_push h (Or.inl rfl)

theorem laterIsArray_serveAll (h : s.registry.LaterIsArray) (qs : List Request) :
    (s.serveAll qs).registry.LaterIsArray := by
  induction qs generalizing s with
  | nil => exact h
  | cons q qs ih => exact ih (laterIsArray_serve h q)

theorem laterIsArray_initial : Registry.initial.LaterIsArray := by
  intro c c' d d' hd hd' hname hlt
  have hcc : c = c' := Registry.findsAll_initial.unique hd hd' hname
  rw [hcc] at hlt
  exact absurd hlt (Nat.lt_irrefl _)

end Store

/-! ## Names that cannot be taken over -/

/-- A name that is none of a type without a class, and does not end like one of a class of arrays. -/
structure PlainName (name : String) : Prop where
  notNull : name ≠ "null"
  notPrimitive : ∀ p : Primitive, name ≠ p.name
  noBrackets : ∀ stem, name ≠ stem ++ "[]"

theorem Primitive.name_ne_brackets (p : Primitive) (stem : String) : p.name ≠ stem ++ "[]" := by
  intro h
  have hlast : p.name.toList.getLast? ≠ some ']' := by cases p <;> decide
  rw [h] at hlast
  simp at hlast

theorem Primitive.name_inj {p q : Primitive} (h : p.name = q.name) : p = q := by
  have hp : Primitive.ofName? p.name = some p := Primitive.ofName?_name p
  rw [h, Primitive.ofName?_name] at hp
  exact (Option.some.inj hp).symm

/-- Classes are declared under plain names, and arrays are asked for of types that are there. -/
def Request.Plain (s : Store) : Request → Prop
  | .register d => PlainName d.qualifiedName
  | .arrayClass t | .newArray t _ => t.KnownTo s.registry
  | .retire _ => True

/-- A registry in which a class of arrays has the name of its component with brackets, and no other class a name like
that. -/
structure Registry.PlainlyNamed (r : Registry) : Prop where
  declared : ∀ {c d}, r.class? c = some d → d.component = none → PlainName d.qualifiedName
  arrays : ∀ {c d t}, r.class? c = some d → d.component = some t →
    t.KnownTo r ∧ d.qualifiedName = r.typeName t ++ "[]"

namespace Registry

theorem PlainlyNamed.ne_primitive (h : r.PlainlyNamed) (hd : r.class? c = some d) (p : Primitive) :
    d.qualifiedName ≠ p.name := by
  cases hcomponent : d.component with
  | none => exact (h.declared hd hcomponent).notPrimitive p
  | some t =>
    rw [(h.arrays hd hcomponent).2]
    exact (p.name_ne_brackets _).symm

theorem PlainlyNamed.ne_null (h : r.PlainlyNamed) (hd : r.class? c = some d) : d.qualifiedName ≠ "null" := by
  cases hcomponent : d.component with
  | none => exact (h.declared hd hcomponent).notNull
  | some t =>
    rw [(h.arrays hd hcomponent).2]
    intro hname
    have hlast := congrArg (·.toList.getLast?) hname
    simp at hlast

/-- A type that is registered is written as its class is named. -/
theorem typeName_ofClass (hd : r.class? c = some d) : r.typeName (.ofClass c) = d.qualifiedName := by
  simp only [typeName, hd]

/-- **Types are told apart by the way they are written.** -/
theorem PlainlyNamed.typeName_inj (h : r.PlainlyNamed) (hall : r.FindsAll) {t t' : Ty} (ht : t.KnownTo r)
    (ht' : t'.KnownTo r) (hname : r.typeName t = r.typeName t') : t = t' := by
  have hclass : ∀ c : ClassId, (Ty.ofClass c).KnownTo r → ∃ d, r.class? c = some d := by
    intro c hc
    exact exists_class (hc c rfl)
  have hnull : ∀ p : Primitive, p.name ≠ "null" := by intro p; cases p <;> decide
  cases t with
  | primitive p =>
    cases t' with
    | primitive q => rw [Primitive.name_inj hname]
    | null => exact absurd hname (hnull p)
    | ofClass c =>
      obtain ⟨d, hd⟩ := hclass c ht'
      rw [typeName_ofClass hd] at hname
      exact absurd hname.symm (h.ne_primitive hd p)
  | null =>
    cases t' with
    | primitive q => exact absurd hname.symm (hnull q)
    | null => rfl
    | ofClass c =>
      obtain ⟨d, hd⟩ := hclass c ht'
      rw [typeName_ofClass hd] at hname
      exact absurd hname.symm (h.ne_null hd)
  | ofClass c =>
    obtain ⟨d, hd⟩ := hclass c ht
    rw [typeName_ofClass hd] at hname
    cases t' with
    | primitive q => exact absurd hname (h.ne_primitive hd q)
    | null => exact absurd hname (h.ne_null hd)
    | ofClass c' =>
      obtain ⟨d', hd'⟩ := hclass c' ht'
      rw [typeName_ofClass hd'] at hname
      rw [hall.unique hd hd' hname]

theorem plainlyNamed_initial : initial.PlainlyNamed where
  declared {c d} hd hcomponent := by
    have hall : ∀ d ∈ initial.classes, d.qualifiedName ≠ "null" ∧ Primitive.ofName? d.qualifiedName = none ∧
        d.qualifiedName.toList.getLast? ≠ some ']' := by decide +kernel
    obtain ⟨hnull, hprimitive, hlast⟩ := hall d (mem_classes_iff.2 ⟨c, hd⟩)
    refine ⟨hnull, ?_, ?_⟩
    · intro p hp
      rw [hp, Primitive.ofName?_name] at hprimitive
      cases hprimitive
    · intro stem hstem
      apply hlast
      rw [hstem]
      simp
  arrays {c d t} hd hcomponent := by
    obtain ⟨decl, rfl⟩ := class?_initial hd
    cases hcomponent

/-- A plainly named registry stays so with one more class that fits in. -/
theorem plainlyNamed_push {make : ClassId → ClassDef} (h : r.PlainlyNamed)
    (hdeclared : (make r.next).component = none → PlainName (make r.next).qualifiedName)
    (harrays : ∀ t, (make r.next).component = some t →
      t.KnownTo r ∧ (make r.next).qualifiedName = r.typeName t ++ "[]") : (r.push make).PlainlyNamed where
  declared {c d} hd hcomponent := by
    rcases class?_push hd with hold | ⟨-, rfl⟩
    · exact h.declared hold hcomponent
    · exact hdeclared hcomponent
  arrays {c d t} hd hcomponent := by
    have hboth : t.KnownTo r ∧ d.qualifiedName = r.typeName t ++ "[]" := by
      rcases class?_push hd with hold | ⟨-, rfl⟩
      · exact h.arrays hold hcomponent
      · exact harrays t hcomponent
    obtain ⟨hknown, hname⟩ := hboth
    -- the component is written as before
    refine ⟨hknown.growsTo (growsTo_push r make), ?_⟩
    rw [hname, typeName_growsTo (growsTo_push r make) hknown]

end Registry

namespace Store

theorem plainlyNamed_serve (h : s.registry.PlainlyNamed) {q : Request} (hq : q.Plain s) :
    (s.serve q).2.registry.PlainlyNamed := by
  rcases s.serve_classes q with ⟨hsame, -⟩ | ⟨d, rfl, -, e⟩ | ⟨t, ⟨-, hq'⟩, e⟩
  · -- the same classes, and so the same names
    have hclass : (s.serve q).2.registry.class? = s.registry.class? := by
      unfold Registry.class?
      rw [hsame]
    constructor
    · intro c d hd hcomponent
      rw [hclass] at hd
      exact h.declared hd hcomponent
    · intro c d t hd hcomponent
      rw [hclass] at hd
      obtain ⟨hknown, hname⟩ := h.arrays hd hcomponent
      have hr : s.registry.GrowsTo (s.serve q).2.registry := s.growsTo_serve q
      rw [Registry.typeName_growsTo hr hknown]
      exact ⟨hknown.growsTo hr, hname⟩
  · rw [e]
    exact Registry.plainlyNamed_push h (fun _ => hq) (fun t ht => by cases ht)
  · have hknown : t.KnownTo s.registry := by
      rcases hq' with rfl | ⟨items, rfl, -⟩ <;> exact hq
    rw [e]
    refine Registry.plainlyNamed_push h (fun hnone => by cases hnone) ?_
    intro t' ht'
    cases ht'
    exact ⟨hknown, rfl⟩

/-- **A plain request takes no name over**: the class of that name would be a class of arrays, and of this component. -/
theorem sparesNames_of_plain (h : s.registry.PlainlyNamed) (hall : s.registry.FindsAll) {q : Request}
    (hq : q.Plain s) : s.SparesNames q := by
  rintro name ⟨t, ⟨hnone, hq'⟩, rfl⟩
  have hknown : t.KnownTo s.registry := by
    rcases hq' with rfl | ⟨items, rfl, -⟩ <;> exact hq
  rw [Registry.named?_eq_none_iff]
  intro d hmem hname
  obtain ⟨c, hd⟩ := Registry.mem_classes_iff.1 hmem
  cases hcomponent : d.component with
  | none => exact (h.declared hd hcomponent).noBrackets _ hname
  | some t' =>
    obtain ⟨hknown', hname'⟩ := h.arrays hd hcomponent
    have hsame : s.registry.typeName t = s.registry.typeName t' := by
      rw [hname] at hname'
      exact (String.append_left_inj "[]").1 hname'
    have htt : t = t' := h.typeName_inj hall hknown hknown' hsame
    -- but that component has no class of arrays yet
    unfold Registry.arrayOf? at hnone
    rw [Option.map_eq_none_iff, List.find?_eq_none] at hnone
    exact hnone d hmem (by simp [hcomponent, htt])

/-- **Classes and names belong together one to one** in every store whose classes are declared under plain names and
whose arrays are of types that were there when they were asked for. -/
theorem findsAll_of_plain (heap : Heap) {qs : List Request}
    (hplain : (start heap).Throughout (fun s q => q.Plain s) qs) : ((start heap).serveAll qs).registry.FindsAll := by
  have hrun : ∀ {s : Store}, s.registry.Proper → s.registry.PlainlyNamed → s.registry.FindsAll →
      s.Throughout (fun s q => q.Plain s) qs → (s.serveAll qs).registry.FindsAll := by
    clear hplain
    intro s hp hnamed hall hplain
    induction qs generalizing s with
    | nil => exact hall
    | cons q qs ih =>
      obtain ⟨hq, hrest⟩ := throughout_cons.1 hplain
      have hspares : s.SparesNames q := sparesNames_of_plain hnamed hall hq
      exact ih (proper_serve hp q) (plainlyNamed_serve hnamed hq) ((findsAll_serve hp q).2 ⟨hall, hspares⟩) hrest
  exact hrun Registry.proper_initial Registry.plainlyNamed_initial Registry.findsAll_initial hplain

/-- **Names in a store**, after any requests from the start. A class is found by its name, and by it to its identity,
unless a later class has that name, which is then a class of arrays. Through any further requests it is found for
as long as none makes a class of arrays of that name. So classes and names belong together one to one if and only
if every class of arrays has come in under a name that no class had. That is so if every class is declared under a
plain name and arrays are only asked for of types that are there. -/
theorem names_serveAll (heap : Heap) (before after : List Request) :
    let s := (start heap).serveAll before
    (∀ c d, s.registry.class? c = some d → (s.registry.Finds d ↔
      ∀ c' d', s.registry.class? c' = some d' → c.index < c'.index → d'.qualifiedName ≠ d.qualifiedName)) ∧
    s.registry.LaterIsArray ∧
    (∀ c d, s.registry.class? c = some d → ((s.serveAll after).registry.Finds d ↔
      s.registry.Finds d ∧ s.Throughout (fun s q => ¬s.TakesOver q d.qualifiedName) after)) ∧
    (s.registry.FindsAll ↔ (start heap).Throughout SparesNames before) ∧
    ((start heap).Throughout (fun s q => q.Plain s) before → s.registry.FindsAll) := by
  intro s
  obtain ⟨hp, -, -⟩ := served heap before
  have hstart : (start heap).registry.FindsAll := Registry.findsAll_initial
  refine ⟨fun c d hd => hp.finds_iff hd, laterIsArray_serveAll laterIsArray_initial before,
    fun c d hd => finds_serveAll hp hd after, ?_, findsAll_of_plain heap⟩
  rw [findsAll_serveAll Registry.proper_initial before]
  exact ⟨And.right, fun h => ⟨hstart, h⟩⟩

/-- A class named `t.P[]` stands where the class of arrays of `t.P` is asked for, and is not found any more. -/
theorem not_names_unique : ¬∀ (heap : Heap) (qs : List Request), ((start heap).serveAll qs).registry.FindsAll := by
  intro h
  let taken : List Request := [.register (.ofName "t.P"), .register (.ofName "t.P[]"), .arrayClass (.ofClass ⟨19⟩)]
  have hboth : (((start .empty).serveAll taken).registry.class? ⟨20⟩).map (·.qualifiedName) = some "t.P[]" ∧
      ((start .empty).serveAll taken).registry.idOf? "t.P[]" = some ⟨21⟩ := by decide +kernel
  obtain ⟨d, hd, hname⟩ := Option.map_eq_some_iff.1 hboth.1
  have hfound := ((h .empty taken).found hd).2
  rw [hname, hboth.2] at hfound
  exact absurd hfound (by decide)

end Store

end MemberAccess
