import MemberAccess.Proofs.Introspection.Denial
import MemberAccess.Proofs.Introspection.Exposure
import MemberAccess.Proofs.Registry.Reach

/-!
# Inherited methods

A method that a supertype lists is looked up on a class by its own signature. It is found, as the method itself
or as a declaration that stands nearer, exactly when the walk of the class comes to the class that declares it.
Assignability alone does not say so: a path that goes up from an interface to its superclass makes a supertype
whose methods the walk never meets.

* `Introspector.Lists`: a class lists a method, with nothing denied.
* `Inherits`: a class answers the signature of a method with the method or with a nearer declaration.
* `inherits_iff_walks`: when it does.
* `inherits_listed`: what a class inherits from those it is assignable to.
* `not_inherits_listed`: not all that they list.
-/

namespace MemberAccess

open Registry (initial)

variable {P : Policy} {r : Registry} {c s : ClassId} {d : ClassDef} {m : Method}

/-- The map of a class lists a method, for an unused introspector that denies nothing. -/
def Introspector.Lists (r : Registry) (c : ClassId) (m : Method) : Prop :=
  m ∈ (({ policy := .unrestricted } : Introspector).overloads r c m.name).1

/-- The signature of a method is answered on a class: of the declarations that its walk comes to, by the first
one that has the signature, and the method is that one or stands after it. -/
def Inherits (r : Registry) (c : ClassId) (m : Method) : Prop :=
  ∃ before x after, Policy.unrestricted.offered r c = before ++ x :: after ∧
    (({ policy := .unrestricted } : Introspector).findMethod r c (.ofMethod m)).1 = .ok (some x.method) ∧
    x.signature = .ofMethod m ∧ (x.method = m ∨ ∃ y ∈ after, y.method = m)

theorem mem_declarations {L : List ClassDef} {x : Declaration} :
    x ∈ P.declarations L ↔ x.cls ∈ L ∧ x.method ∈ P.offers x.cls := by
  obtain ⟨d, m⟩ := x
  simp [Policy.declarations]

theorem Declaration.allowed_unrestricted (x : Declaration) : x.allowed .unrestricted = true := by
  simp [Declaration.allowed, Policy.allowsMethod, Policy.allowsClass, Policy.showsClass, Policy.deniesMember]

/-- What a class exposes is declared by a class that its walk comes to. -/
theorem mem_offered (hp : r.Proper) (hd : r.class? c = some d) {x : Declaration} (hx : x ∈ P.offered r c) :
    r.class? x.method.declaring = some x.cls ∧ r.Walks c x.method.declaring ∧ x.method ∈ P.offers x.cls := by
  unfold Policy.offered at hx
  rw [hd] at hx
  simp only at hx
  split at hx
  · obtain ⟨hlineage, hoffers⟩ := mem_declarations.1 hx
    obtain ⟨e, he, hwalks⟩ := (Registry.mem_lineage_iff hp hd).1 hlineage
    have hmethods := Population.mem_methods_of_mem_offers hoffers
    have hdeclaring : x.method.declaring = e := ((hp.owns he).methods _ hmethods).trans (hp.id he)
    rw [hdeclaring]
    exact ⟨he, hwalks, hoffers⟩
  · cases hx

/-- Whatever a class lists it exposes. -/
theorem Introspector.Lists.offered (h : Lists r c m) : ∃ x ∈ Policy.unrestricted.offered r c, x.method = m := by
  unfold Lists overloads mapOf at h
  cases hb : ClassMap.build r .unrestricted c with
  | none => simp [Assoc.get?, hb] at h
  | some built =>
    obtain ⟨d, hd, halive, hallow, rfl⟩ := ClassMap.build_eq_some hb
    have hoffered : Policy.unrestricted.offered r c = Policy.unrestricted.declarations (r.lineage d) := by
      simp [Policy.offered, hd, halive, hallow]
    simp only [Assoc.get?, hb, Option.map_some, ClassMap.overloads, Population.ofLineage_eq] at h
    obtain ⟨x, hx, rfl⟩ := List.mem_map.1 (List.mem_of_mem_filter h)
    rw [hoffered]
    exact ⟨x, mem_of_mem_nearest (List.mem_of_mem_filter hx), rfl⟩

theorem Introspector.Lists.known (h : Lists r c m) : ∃ d, r.class? c = some d := by
  obtain ⟨x, hx, -⟩ := h.offered
  unfold Policy.offered at hx
  cases hd : r.class? c with
  | none => simp [hd] at hx
  | some d => exact ⟨d, rfl⟩

/-- The first declaration of a signature is what a class answers it with, when nothing is denied. -/
theorem findMethod_first {before after : List Declaration} {x : Declaration} {s : Signature}
    (hoffered : Policy.unrestricted.offered r c = before ++ x :: after) (hx : x.signature = s)
    (hbefore : ∀ y ∈ before, y.signature ≠ s) :
    (({ policy := .unrestricted } : Introspector).findMethod r c s).1 = .ok (some x.method) := by
  have hfind : (Policy.unrestricted.offered r c).find? (·.signature = s) = some x := by
    rw [hoffered, List.find?_append, List.find?_eq_none.2 (by simpa using hbefore)]
    simp [hx]
  rw [Introspector.findMethod_unused]
  unfold Policy.lookupAmong
  rw [hfind]
  simp [Declaration.outcome, x.allowed_unrestricted, Lookup.answer]

/-- **A listed method is inherited exactly when the walk comes to the class that declares it.** -/
theorem inherits_iff_walks (hp : r.Proper) (hd : r.class? c = some d) (halive : r.isAlive c = true)
    {t : ClassDef} (ht : r.class? s = some t) (hm : Introspector.Lists r s m) :
    Inherits r c m ↔ r.Walks c m.declaring := by
  constructor
  · rintro ⟨before, x, after, hoffered, -, -, hx | ⟨y, hy, hym⟩⟩
    · have := mem_offered hp hd (x := x) (by rw [hoffered]; simp)
      exact hx ▸ this.2.1
    · have := mem_offered hp hd (x := y) (by rw [hoffered]; simp [hy])
      exact hym ▸ this.2.1
  · intro hwalks
    obtain ⟨z, hz, rfl⟩ := hm.offered
    obtain ⟨hcls, -, hoffers⟩ := mem_offered hp ht hz
    -- the same declaration stands in the walk of the class
    have hmem : z ∈ Policy.unrestricted.offered r c := by
      have hallow : Policy.unrestricted.allowsClass d = true := by simp [Policy.allowsClass, Policy.showsClass]
      unfold Policy.offered
      rw [hd]
      simp only [halive, hallow, Bool.and_self, if_true]
      exact mem_declarations.2 ⟨(Registry.mem_lineage_iff hp hd).2 ⟨_, hcls, hwalks⟩, hoffers⟩
    have hexists : ∃ x ∈ Policy.unrestricted.offered r c, decide (x.signature = z.signature) = true :=
      ⟨z, hmem, by simp⟩
    obtain ⟨x, hx⟩ := List.find?_isSome.2 hexists |> Option.isSome_iff_exists.1
    obtain ⟨hsig, before, after, hsplit, hbefore⟩ := List.find?_eq_some_iff_append.1 hx
    have hsig' : x.signature = z.signature := by simpa using hsig
    have hbefore' : ∀ y ∈ before, y.signature ≠ z.signature := fun y hy => by simpa using hbefore y hy
    refine ⟨before, x, after, hsplit, findMethod_first hsplit hsig' hbefore', hsig', ?_⟩
    -- the method itself does not stand before the first declaration
    rw [hsplit, List.mem_append, List.mem_cons] at hmem
    rcases hmem with hz | rfl | hz
    · exact absurd rfl (hbefore' z hz)
    · exact .inl rfl
    · exact .inr ⟨z, hz, rfl⟩

/-- The root and its methods are inherited by every array class from every other one. -/
theorem walks_declaring_of_array (hinit : initial.GrowsTo r) (hp : r.Proper) (hmade : r.Made) {t : ClassDef}
    (hd : r.class? c = some d) (harray : d.isArray = true) (ht : r.class? s = some t) (htarray : t.isArray = true)
    (hm : Introspector.Lists r s m) : r.Walks c m.declaring := by
  obtain ⟨x, hx, rfl⟩ := hm.offered
  obtain ⟨hcls, hwalks, hoffers⟩ := mem_offered hp ht hx
  rcases Registry.reaches_array hinit hmade ht htarray hwalks.reaches with hown | hroot
  · -- an array class declares nothing itself
    rw [hown, ht] at hcls
    cases hcls
    have hmethods := Population.mem_methods_of_mem_offers hoffers
    rw [(hmade.array ht htarray).2] at hmethods
    cases hmethods
  · rw [hroot]
    exact ⟨.object, .single (hmade.array_extends hd harray), .refl⟩

/-- **What a class inherits from those it is assignable to.** Its walk stays among them. It inherits a method that
one of them lists exactly when its walk comes to the class that declares the method; and it inherits all that they
list when, above it, no class extends an interface and no declared interface extends a class but the root. -/
theorem inherits_listed (changes : List Registry.Change) {c s : ClassId} {d : ClassDef} :
    let r := initial.applyAll changes
    r.class? c = some d → r.isAlive c = true → r.isAssignable c s = true →
    (∀ e t, r.class? e = some t → r.Walks c e → r.isAssignable c e = true) ∧
    (∀ m, Introspector.Lists r s m → (Inherits r c m ↔ r.Walks c m.declaring)) ∧
    (r.KeptApart c → ∀ m, Introspector.Lists r s m → Inherits r c m) := by
  intro r hd halive hassign
  have hinit : initial.GrowsTo r := Registry.growsTo_applyAll initial changes
  have hp : r.Proper := Registry.proper_applyAll Registry.proper_initial changes
  have hmade : r.Made := Registry.made_applyAll Registry.made_initial changes
  have hiff : ∀ m, Introspector.Lists r s m → (Inherits r c m ↔ r.Walks c m.declaring) := by
    intro m hm
    obtain ⟨t, ht⟩ := hm.known
    exact inherits_iff_walks hp hd halive ht hm
  refine ⟨fun e t ht => Registry.isAssignable_of_walks hinit hp hmade hd ht, hiff, ?_⟩
  intro hapart m hm
  rw [hiff m hm]
  obtain ⟨t, ht⟩ := hm.known
  rcases Registry.isAssignable_cases hp hassign with hreaches | ⟨d', t', hd', ht', harray, htarray⟩
  · obtain ⟨x, hx, rfl⟩ := hm.offered
    obtain ⟨-, hwalks, -⟩ := mem_offered hp ht hx
    exact Registry.walks_of_reaches hp hmade (Registry.index_lt hd) hapart (hreaches.trans hwalks.reaches)
  · exact walks_declaring_of_array hinit hp hmade hd' harray ht' htarray hm

/-- A method of a name that a map has, and its signature. -/
theorem exists_lists {c : ClassId} {name : String} {s : Signature}
    (h : (({ policy := .unrestricted } : Introspector).overloads r c name).1.map Signature.ofMethod = [s])
    (hname : s.name = name) : ∃ m, Introspector.Lists r c m ∧ Signature.ofMethod m = s := by
  obtain ⟨m, hm, hsig⟩ := List.mem_map.1 (h ▸ List.mem_singleton_self s)
  have hnamed : m.name = name := by
    rw [← hname, ← hsig]
    rfl
  exact ⟨m, by unfold Introspector.Lists; rwa [hnamed], hsig⟩

/-- A book inherits the name of what is named through an interface that declares it again. -/
theorem inherits_listed_shelf :
    let r := initial.applyAll ClassMap.shelf
    r.isAssignable ⟨21⟩ ⟨19⟩ = true ∧ r.KeptApart ⟨21⟩ ∧
      ∃ m, Introspector.Lists r ⟨19⟩ m ∧ Inherits r ⟨21⟩ m := by
  intro r
  have hd : r.class? ⟨21⟩ = some (.ofDecl ⟨21⟩ ClassMap.book) := rfl
  obtain ⟨halive, hassign, hconventional, hlisted⟩ :
      r.isAlive ⟨21⟩ = true ∧ r.isAssignable ⟨21⟩ ⟨19⟩ = true ∧ r.Conventional ∧
        (({ policy := .unrestricted } : Introspector).overloads r ⟨19⟩ "name").1.map Signature.ofMethod =
          [.ofArgs "name" []] := by
    unfold Registry.Conventional
    decide +kernel
  have hapart : r.KeptApart ⟨21⟩ := hconventional.keptApart hd rfl
  obtain ⟨m, hm, -⟩ := exists_lists hlisted rfl
  exact ⟨hassign, hapart, m, hm, (inherits_listed ClassMap.shelf hd halive hassign).2.2 hapart m hm⟩

/-- An interface, one that extends it, and a class that implements that one. -/
def stacked : List Registry.Change :=
  [.register ((ClassDecl.interface "t.Named").method "name" [] .string .answersNull),
    .register ((ClassDecl.interface "t.Titled").extending ⟨19⟩),
    .register ((ClassDecl.ofName "t.Book").implementing ⟨20⟩)]

/-- A class does not inherit all that its supertypes list: the walk does not go up from an interface to the one
that it extends. -/
theorem not_inherits_listed :
    ¬ ∀ (changes : List Registry.Change) (c s : ClassId) (d t : ClassDef) (m : Method),
      let r := initial.applyAll changes
      r.class? c = some d → r.isAlive c = true → d.isInterface = false →
      r.class? s = some t → r.isAlive s = true → t.isPublic = true → r.isAssignable c s = true →
      Introspector.Lists r s m →
      ∃ m', (({ policy := .unrestricted } : Introspector).findMethod r c (.ofMethod m)).1 = .ok (some m') := by
  intro h
  let r := initial.applyAll stacked
  obtain ⟨hc, hs, hassign, hlisted, hnone⟩ :
      r.isAlive ⟨21⟩ = true ∧ r.isAlive ⟨19⟩ = true ∧ r.isAssignable ⟨21⟩ ⟨19⟩ = true ∧
        (({ policy := .unrestricted } : Introspector).overloads r ⟨19⟩ "name").1.map Signature.ofMethod =
          [.ofArgs "name" []] ∧
        ((({ policy := .unrestricted } : Introspector).findMethod r ⟨21⟩ (.ofArgs "name" [])).1.toOption.map
          (·.map (·.id))) = some none := by decide +kernel
  obtain ⟨m, hm, hsig⟩ := exists_lists hlisted rfl
  obtain ⟨m', hm'⟩ := h stacked ⟨21⟩ ⟨19⟩ _ _ m rfl hc rfl rfl hs rfl hassign hm
  rw [← hsig, hm'] at hnone
  cases hnone

end MemberAccess
