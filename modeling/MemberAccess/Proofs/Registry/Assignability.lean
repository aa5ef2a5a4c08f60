import MemberAccess.Proofs.Registry.Components
import MemberAccess.Proofs.Registry.Rooted

/-!
# The order of assignability

Two comparisons make up assignability: a path through the hierarchy, and for two classes of arrays a comparison of
their components. Each of them is an order. They meet where a declared class names a class of arrays among its
supertypes: the paths up from it go through that class and on to the root, and miss the other arrays that the class of
arrays is assignable to.

* `Registry.Conforms`: assignability, with no bound on the layers of arrays (`isAssignable_iff_conforms`).
* `Conforms.antisymm`: two classes that are assignable to one another are the same.
* `Registry.Parts`: a class, a supertype and a supertype of that one, apart at the arrays (`parts_iff`).
* `Registry.InheritsCovariance`: a class that names a class of arrays is assignable to all that this one is.
* `Store.assignable_order`: in every store, assignability is an order up to that, and one exactly if that holds.
-/

namespace MemberAccess

namespace Registry

open Relation (ReflTransGen TransGen)

variable {r : Registry} {a b c s : ClassId}

/-! ## Assignability without a bound -/

/-- A class conforms to itself, to what a path leads to, unless both are classes of arrays, and as a class of arrays to
another if the components conform. -/
inductive Conforms (r : Registry) : ClassId → ClassId → Prop
  | same (a : ClassId) : Conforms r a a
  | path {a b : ClassId} (hplain : ¬(r.isArray a = true ∧ r.isArray b = true)) (h : r.Reaches a b) : Conforms r a b
  | components {a b a' b' : ClassId} (h : r.Covariant a b a' b') (rest : Conforms r a' b') : Conforms r a b

/-- Classes of arrays are those with a component. -/
theorem isArray_iff : r.isArray a = true ↔ ∃ d t, r.class? a = some d ∧ d.component = some t := by
  cases hd : r.class? a with
  | none => simp [isArray, hd]
  | some d => simp [isArray, hd, ClassDef.isArray, Option.isSome_iff_exists]

theorem Covariant.isArray {a' b' : ClassId} (h : r.Covariant a b a' b') : r.isArray a = true ∧ r.isArray b = true := by
  obtain ⟨x, d, hx, hd, hdc⟩ := component?_eq_some_iff.1 h.1
  obtain ⟨y, e, hy, he, hec⟩ := component?_eq_some_iff.1 h.2
  cases hx
  cases hy
  exact ⟨isArray_iff.2 ⟨d, _, hd, hdc⟩, isArray_iff.2 ⟨e, _, he, hec⟩⟩

/-- A path that leads to another class leads from a registered class to a registered one. -/
theorem Reaches.registered (hp : r.Proper) (hne : a ≠ b) (h : r.Reaches a b) :
    a.index < r.size ∧ b.index < r.size := by
  rcases Relation.reflTransGen_iff_eq_or_transGen.1 h with heq | h
  · exact absurd heq.symm hne
  · obtain ⟨x, hfirst, -⟩ := TransGen.head'_iff.1 h
    obtain ⟨y, -, hlast⟩ := TransGen.tail'_iff.1 h
    exact ⟨(hp.edge hfirst).1, (hp.edge hlast).2.1⟩

/-- A distance within some layers of arrays is one without a bound on them. -/
theorem compares_of_distanceWithin {n k : Nat} (h : r.distanceWithin n a b = some k) : r.Compares a b (some k) := by
  induction n using Nat.strongRecOn generalizing a b with
  | ind n ih =>
    by_cases hne : a = b
    · subst hne
      have hk : k = 0 := by
        unfold distanceWithin at h
        simpa using h.symm
      rw [hk]
      exact .same a
    · by_cases hdown : ∃ a' b', r.Covariant a b a' b'
      · obtain ⟨a', b', hdown⟩ := hdown
        cases n with
        | zero =>
          -- there is no layer left to go down
          obtain ⟨⟨x, d, hx, hd, hdc⟩, ⟨y, e, hy, he, hec⟩⟩ :=
            And.intro (component?_eq_some_iff.1 hdown.1) (component?_eq_some_iff.1 hdown.2)
          cases hx
          cases hy
          simp [distanceWithin, hne, hd, he, hdc, hec] at h
        | succ n =>
          rw [distanceWithin_covariant hne hdown] at h
          exact .components hne hdown (ih n (Nat.lt_succ_self n) h)
      · push Not at hdown
        rw [distanceWithin_other hdown] at h
        rw [← h]
        exact .other hne hdown

/-- Two classes of arrays, not both of references, are at no distance from one another. -/
theorem distanceWithin_of_arrays {n : Nat} (hne : a ≠ b) (ha : r.isArray a = true) (hb : r.isArray b = true)
    (hother : ∀ a' b', ¬r.Covariant a b a' b') : r.distanceWithin n a b = none := by
  obtain ⟨d, t, hd, hdt⟩ := isArray_iff.1 ha
  obtain ⟨e, u, he, heu⟩ := isArray_iff.1 hb
  rw [distanceWithin_other hother]
  unfold distanceWithin
  rw [if_neg hne]
  simp only [hd, he, hdt, heu]
  cases t <;> cases u <;> rfl

/-- **A class is assignable to those that it conforms to.** -/
theorem isAssignable_iff_conforms (hp : r.Proper) (hapart : r.ArraysApart) :
    r.isAssignable a b = true ↔ r.Conforms a b := by
  constructor
  · intro h
    obtain ⟨k, hk⟩ := Option.isSome_iff_exists.1 h
    have hcompares := compares_of_distanceWithin hk
    clear h hk
    generalize hsome : some k = answer at hcompares
    induction hcompares with
    | same a => exact .same a
    | components _ hdown _ ih => exact .components hdown (ih hsome)
    | @other a b hne hother =>
      have hplain : ¬(r.isArray a = true ∧ r.isArray b = true) := by
        rintro ⟨ha, hb⟩
        rw [distanceWithin_of_arrays hne ha hb hother] at hsome
        cases hsome
      have hassignable : r.isAssignable a b = true := by
        unfold isAssignable distance
        rw [distanceWithin_other hother, ← hsome]
        rfl
      exact .path hplain (reaches_of_isAssignable hp hplain hassignable)
  · intro h
    suffices ∃ k, r.Compares a b (some k) by
      obtain ⟨k, hk⟩ := this
      simp [isAssignable, hk.distance hapart]
    induction h with
    | same a => exact ⟨0, .same a⟩
    | @path a b hplain h =>
      by_cases hne : a = b
      · subst hne
        exact ⟨0, .same a⟩
      · obtain ⟨ha, hb⟩ := h.registered hp hne
        obtain ⟨k, hk⟩ := Option.isSome_iff_exists.1 ((steps_isSome_iff hp ha).2 h)
        rw [← distance_of_not_arrays ha hb hne hplain] at hk
        exact ⟨k, compares_of_distanceWithin hk⟩
    | @components a b a' b' hdown _ ih =>
      by_cases hne : a = b
      · subst hne
        exact ⟨0, .same a⟩
      · obtain ⟨k, hk⟩ := ih
        exact ⟨k, .components hne hdown hk⟩

/-! ## The order -/

/-- A registry that comes about by requests: what the order of its classes rests on. -/
structure Ordered (r : Registry) : Prop where
  proper : r.Proper
  initial : initial.GrowsTo r
  made : r.Made
  apart : r.ArraysApart

/-- The root is no class of arrays. -/
theorem Ordered.isArray_object (hr : r.Ordered) : r.isArray .object = false := by
  obtain ⟨root, hroot⟩ := exists_class (r := Registry.initial) (c := .object) (by decide)
  obtain ⟨decl, rfl⟩ := class?_initial hroot
  rw [isArray, hr.initial.class?_some hroot]
  rfl

/-- Above a class of arrays there is only the root. -/
theorem Ordered.above_array (hr : r.Ordered) (ha : r.isArray a = true) (hne : a ≠ b) (h : r.Reaches a b) :
    b = .object := by
  obtain ⟨d, t, hd, hdt⟩ := isArray_iff.1 ha
  rcases reaches_array hr.initial hr.made hd (by simp [ClassDef.isArray, hdt]) h with heq | heq
  · exact absurd heq.symm hne
  · exact heq

/-- Nothing but the root is above the root. -/
theorem Ordered.above_object (hr : r.Ordered) (h : r.Reaches .object b) : b = .object := by
  rcases ReflTransGen.cases_head h with heq | ⟨x, hedge, -⟩
  · exact heq.symm
  · exact absurd hedge (not_edge_object hr.initial)

/-- **Two classes that conform to one another are the same.** -/
theorem Conforms.antisymm (hr : r.Ordered) (h : r.Conforms a b) (hback : r.Conforms b a) : a = b := by
  induction h with
  | same a => rfl
  | @path a b hplain hup =>
    cases hback with
    | same => rfl
    | path _ hdown =>
      -- a path there and one back would make a cycle
      rcases Relation.reflTransGen_iff_eq_or_transGen.1 hup with heq | hup
      · exact heq.symm
      · exact absurd (hup.trans_left hdown) (not_above_self hr.proper a)
    | components hcovariant => exact absurd hcovariant.isArray.symm hplain
  | @components a b a' b' hcovariant _ ih =>
    cases hback with
    | same => rfl
    | path hplain => exact absurd hcovariant.isArray.symm hplain
    | @components _ _ b'' a'' hback' hrest =>
      -- one type of components has one class of arrays
      obtain ⟨ha, hb⟩ := hcovariant
      obtain ⟨hb', ha'⟩ := hback'
      rw [ha] at ha'
      rw [hb] at hb'
      cases ha'
      cases hb'
      rw [ih hrest] at ha
      exact Ty.ofClass.inj (hr.apart.component_inj ha hb)

/-- A class, a supertype of it and a supertype of that one, apart at the arrays: some layers of arrays down, the same
for all three, the first is no class of arrays and has one above it, which is assignable to another one that is not
above the first. -/
inductive Parts (r : Registry) : ClassId → ClassId → ClassId → Prop
  | here {a b c : ClassId} (ha : r.isArray a = false) (hb : r.isArray b = true) (hc : r.isArray c = true)
      (hup : r.Reaches a b) (hacross : r.Conforms b c) (hmiss : ¬r.Reaches a c) : Parts r a b c
  | layer {a b c a' b' c' : ClassId} (hab : r.Covariant a b a' b') (hbc : r.Covariant b c b' c')
      (rest : Parts r a' b' c') : Parts r a b c

theorem Parts.conforms (h : r.Parts a b c) : r.Conforms a b ∧ r.Conforms b c := by
  induction h with
  | here ha _ _ hup hacross _ => exact ⟨.path (by simp [ha]) hup, hacross⟩
  | layer hab hbc _ ih => exact ⟨.components hab ih.1, .components hbc ih.2⟩

theorem Parts.not_conforms (h : r.Parts a b c) : ¬r.Conforms a c := by
  induction h with
  | @here a b c ha hb hc hup hacross hmiss =>
    intro h
    cases h with
    | same => exact hmiss .refl
    | path _ h => exact hmiss h
    | components hcovariant =>
      rw [hcovariant.isArray.1] at ha
      cases ha
  | @layer a b c a' b' c' hab hbc _ ih =>
    intro h
    have harrays : r.isArray a = true ∧ r.isArray c = true := ⟨hab.isArray.1, hbc.isArray.2⟩
    have hac : r.Covariant a c a' c' := ⟨hab.1, hbc.2⟩
    cases h with
    | same =>
      -- the same class has the same component
      have hsame := hac.1.symm.trans hac.2
      cases hsame
      exact ih (.same a')
    | path hplain => exact hplain harrays
    | @components _ _ a'' c'' hac' hrest =>
      obtain ⟨ha', hc'⟩ := hac'
      rw [hac.1] at ha'
      rw [hac.2] at hc'
      cases ha'
      cases hc'
      exact ih hrest

/-- **A class conforms to a supertype of a supertype**, unless the three are apart at the arrays. -/
theorem Conforms.trans_or_parts (hr : r.Ordered) (hab : r.Conforms a b) (hbc : r.Conforms b c) :
    r.Conforms a c ∨ r.Parts a b c := by
  induction hab generalizing c with
  | same a => exact .inl hbc
  | @path a b hplain hup =>
    cases hbc with
    | same => exact .inl (.path hplain hup)
    | path hplain' hup' =>
      refine .inl (.path ?_ (hup.trans hup'))
      -- above an array there is only the root, and above that no array
      rintro ⟨ha, hc⟩
      have hb : r.isArray b = false := by
        by_contra hb
        exact hplain ⟨ha, by simpa using hb⟩
      have hne : a ≠ b := by
        rintro rfl
        rw [ha] at hb
        cases hb
      rw [hr.above_array ha hne hup] at hup'
      rw [hr.above_object hup', hr.isArray_object] at hc
      cases hc
    | components hcovariant hrest =>
      obtain ⟨hb, hc⟩ := hcovariant.isArray
      have ha : r.isArray a = false := by
        by_contra ha
        exact hplain ⟨by simpa using ha, hb⟩
      by_cases hreach : r.Reaches a c
      · exact .inl (.path (by simp [ha]) hreach)
      · exact .inr (.here ha hb hc hup (.components hcovariant hrest) hreach)
  | @components a b a' b' hcovariant hrest ih =>
    obtain ⟨ha, hb⟩ := hcovariant.isArray
    cases hbc with
    | same => exact .inl (.components hcovariant hrest)
    | path hplain' hup' =>
      -- from one array up to no array there is only the way to the root, and it is there from the other
      have hne : b ≠ c := by
        rintro rfl
        exact hplain' ⟨hb, hb⟩
      have hc := hr.above_array hb hne hup'
      obtain ⟨d, t, hd, -⟩ := isArray_iff.1 ha
      refine .inl (.path ?_ (hc ▸ reaches_object hr.proper (index_lt hd)))
      rw [hc, hr.isArray_object]
      simp
    | @components _ _ b'' c' hcovariant' hrest' =>
      have hsame : b'' = b' := by
        have hb' := hcovariant'.1.symm.trans hcovariant.2
        exact Ty.ofClass.inj (Option.some.inj hb')
      subst hsame
      rcases ih hrest' with h | h
      · exact .inl (.components ⟨hcovariant.1, hcovariant'.2⟩ h)
      · exact .inr (.layer hcovariant hcovariant' h)

/-- **Where assignability does not go on**: exactly where a class and a supertype part at the arrays. -/
theorem parts_iff (hr : r.Ordered) : r.Parts a b c ↔
    r.isAssignable a b = true ∧ r.isAssignable b c = true ∧ r.isAssignable a c = false := by
  rw [← Bool.not_eq_true, isAssignable_iff_conforms hr.proper hr.apart, isAssignable_iff_conforms hr.proper hr.apart,
    isAssignable_iff_conforms hr.proper hr.apart]
  constructor
  · exact fun h => ⟨h.conforms.1, h.conforms.2, h.not_conforms⟩
  · rintro ⟨hab, hbc, hnot⟩
    exact (hab.trans_or_parts hr hbc).resolve_left hnot

/-! ## Classes that name arrays -/

/-- A class that has a class of arrays right above it is assignable to all that this one is assignable to. -/
def InheritsCovariance (r : Registry) : Prop := ∀ c s t, r.Edge c s → r.isArray s = true →
  r.isAssignable s t = true → r.isAssignable c t = true

/-- What has a class of arrays right above it is none. -/
theorem Ordered.plain_of_edge (hr : r.Ordered) (h : r.Edge c s) (hs : r.isArray s = true) : r.isArray c = false := by
  by_contra hc
  have hne : c ≠ s := by
    rintro rfl
    exact not_above_self hr.proper c (.single h)
  rw [hr.above_array (by simpa using hc) hne (.single h), hr.isArray_object] at hs
  cases hs

/-- Classes that inherit covariance part from no supertype. -/
theorem InheritsCovariance.not_parts (hr : r.Ordered) (hinherits : r.InheritsCovariance) : ¬r.Parts a b c := by
  intro h
  induction h with
  | @here a b c ha hb hc hup hacross hmiss =>
    -- the last class on the way up to the array is assignable to the other one, so a path leads there
    rcases ReflTransGen.cases_tail hup with heq | ⟨x, hto, hedge⟩
    · rw [heq, ha] at hb
      cases hb
    · have hx := hr.plain_of_edge hedge hb
      have hassignable := hinherits x _ c hedge hb ((isAssignable_iff_conforms hr.proper hr.apart).2 hacross)
      exact hmiss (hto.trans (reaches_of_isAssignable hr.proper (by simp [hx]) hassignable))
  | layer _ _ _ ih => exact ih

/-- **Assignability is transitive exactly where classes inherit covariance.** -/
theorem transitive_iff (hr : r.Ordered) :
    (∀ a b c, r.isAssignable a b = true → r.isAssignable b c = true → r.isAssignable a c = true) ↔
      r.InheritsCovariance := by
  constructor
  · intro htrans c s t hedge hs hst
    have hc := hr.plain_of_edge hedge hs
    have hcs : r.isAssignable c s = true :=
      (isAssignable_iff_conforms hr.proper hr.apart).2 (.path (by simp [hc]) (.single hedge))
    exact htrans c s t hcs hst
  · intro hinherits a b c hab hbc
    by_contra hac
    exact hinherits.not_parts hr ((parts_iff hr).2 ⟨hab, hbc, by simpa using hac⟩)

/-- No class has a class of arrays right above it. -/
def PlainAbove (r : Registry) : Prop := ∀ c s, r.Edge c s → r.isArray s = false

theorem PlainAbove.inheritsCovariance (h : r.PlainAbove) : r.InheritsCovariance := by
  intro c s t hedge hs
  rw [h c s hedge] at hs
  cases hs

theorem plainAbove_initial : initial.PlainAbove := by
  intro c s hedge
  obtain ⟨e, he⟩ := exists_class (proper_initial.edge hedge).2.1
  obtain ⟨decl, rfl⟩ := class?_initial he
  rw [isArray, he]
  rfl

/-- One more class, with none of arrays above it, changes nothing about the others. -/
theorem PlainAbove.push (hp : r.Proper) (h : r.PlainAbove) {make : ClassId → ClassDef}
    (hmake : ∀ s ∈ (make r.next).supertypes, s.index < r.size ∧ r.isArray s = false) : (r.push make).PlainAbove := by
  intro c s hedge
  have hbefore : s.index < r.size ∧ r.isArray s = false := by
    cases hd : (r.push make).class? c with
    | none => simp [Edge, supertypes, hd] at hedge
    | some d =>
      rw [edge_iff hd] at hedge
      rcases class?_push hd with hd | ⟨-, rfl⟩
      · have hold : r.Edge c s := (edge_iff hd).2 hedge
        exact ⟨(hp.edge hold).2.1, h c s hold⟩
      · exact hmake s hedge
  rw [isArray, (growsTo_push r make).class?_eq hbefore.1]
  exact hbefore.2

theorem PlainAbove.arrayClass (hr : r.Ordered) (h : r.PlainAbove) (t : Ty) : (r.arrayClass t).2.PlainAbove := by
  rcases r.arrayClass_cases t with ⟨c, -, e⟩ | ⟨-, e⟩ <;> rw [e]
  · exact h
  · refine h.push hr.proper fun s hs => ?_
    have hroot : s = .object := by simpa [ClassDef.ofArray, ClassDef.supertypes] using hs
    rw [hroot]
    exact ⟨Nat.lt_of_lt_of_le (by decide) hr.proper.core, hr.isArray_object⟩

end Registry

namespace Store

open Registry

/-- What the order of the classes of a store rests on. -/
theorem ordered_serveAll (heap : Heap) (qs : List Request) : ((start heap).serveAll qs).registry.Ordered := by
  obtain ⟨hp, hinit, -⟩ := served heap qs
  obtain ⟨changes, h⟩ := (start heap).serveAll_registry qs
  refine ⟨hp, hinit, ?_, arraysApart_serveAll heap qs⟩
  rw [h]
  exact made_applyAll made_initial changes

/-- Of the classes that a request names as supertypes of a new one, none is a class of arrays. -/
def NamesNoArray (s : Store) (q : Request) : Prop :=
  ∀ d, q = .register d → ∀ c, c ∈ d.superclass ∨ c ∈ d.interfaces → s.registry.isArray c = false

def NamesNoArrays (s : Store) : List Request → Prop
  | [] => True
  | q :: rest => s.NamesNoArray q ∧ (s.serve q).2.NamesNoArrays rest

/-- **A request that names no class of arrays as a supertype** puts none above a class. -/
theorem plainAbove_serve {s : Store} (hr : s.registry.Ordered) (h : s.registry.PlainAbove) {q : Request}
    (hq : s.NamesNoArray q) : (s.serve q).2.registry.PlainAbove := by
  cases q with
  | register d =>
    simp only [serve]
    cases hok : s.registry.register d with
    | error f => exact h
    | ok answer =>
      obtain ⟨c, r⟩ := answer
      obtain ⟨-, hsuper, hinter, -, rfl⟩ := register_ok hok
      have hnamed := hq d rfl
      show (s.registry.push (ClassDef.ofDecl · d)).PlainAbove
      refine h.push hr.proper fun t ht => ?_
      have hroot : ClassId.object.index < s.registry.size ∧ s.registry.isArray .object = false :=
        ⟨Nat.lt_of_lt_of_le (by decide) hr.proper.core, hr.isArray_object⟩
      rcases ClassDef.mem_supertypes ht with ht | ht | rfl
      · exact ⟨hinter t ht, hnamed t (.inr ht)⟩
      · rcases ClassDef.superclass_ofDecl ht with ht | rfl
        · exact ⟨hsuper t ht, hnamed t (.inl ht)⟩
        · exact hroot
      · exact hroot
  | arrayClass t => exact h.arrayClass hr t
  | newArray t items =>
    simp only [serve]
    cases hok : s.registry.newArray s.heap t items with
    | error f => exact h
    | ok answer =>
      obtain ⟨array, r, heap⟩ := answer
      obtain ⟨-, -, rfl, -⟩ := newArray_ok hok
      exact h.arrayClass hr t
  | retire c =>
    change PlainAbove (s.registry.retire c).2
    rcases s.registry.retire_cases c with ⟨-, -, e⟩ | e <;> rw [e]
    · exact h
    · exact h

theorem plainAbove_serveAll (heap : Heap) {before after : List Request}
    (h : ((start heap).serveAll before).registry.PlainAbove)
    (hafter : ((start heap).serveAll before).NamesNoArrays after) :
    ((start heap).serveAll (before ++ after)).registry.PlainAbove := by
  induction after generalizing before with
  | nil => rwa [List.append_nil]
  | cons q rest ih =>
    have hstep := plainAbove_serve (ordered_serveAll heap before) h hafter.1
    have hmore : (start heap).serveAll (before ++ [q]) = (((start heap).serveAll before).serve q).2 := by
      rw [serveAll_append]
      rfl
    rw [← hmore] at hstep
    have hall := ih hstep (by rw [hmore]; exact hafter.2)
    rwa [List.append_assoc] at hall

/-- **Assignability is an order, arrays and declared classes apart.** In every store, every class is assignable to
itself, and two classes that are assignable to one another are the same. A class is assignable to a supertype of a
supertype exactly unless the three part at the arrays; so assignability is transitive exactly where a class that names
a class of arrays as its superclass or as an interface is assignable to all that this class of arrays is. A host whose
classes never name one has an order. -/
theorem assignable_order (heap : Heap) (qs : List Request) :
    let r := ((start heap).serveAll qs).registry
    (∀ a, r.isAssignable a a = true) ∧
      (∀ a b, r.isAssignable a b = true → r.isAssignable b a = true → a = b) ∧
      (∀ a b c, r.Parts a b c ↔
        r.isAssignable a b = true ∧ r.isAssignable b c = true ∧ r.isAssignable a c = false) ∧
      ((∀ a b c, r.isAssignable a b = true → r.isAssignable b c = true → r.isAssignable a c = true) ↔
        r.InheritsCovariance) ∧
      ((start heap).NamesNoArrays qs → r.InheritsCovariance) := by
  intro r
  have hr : r.Ordered := ordered_serveAll heap qs
  refine ⟨fun a => by simp [isAssignable, distance_self], fun a b hab hba => ?_, fun a b c => parts_iff hr,
    transitive_iff hr, fun h => ?_⟩
  · rw [isAssignable_iff_conforms hr.proper hr.apart] at hab hba
    exact hab.antisymm hr hba
  · have hplain : ((start heap).serveAll ([] ++ qs)).registry.PlainAbove :=
      plainAbove_serveAll heap plainAbove_initial h
    exact hplain.inheritsCovariance

/-- No request of `nested` names a class of arrays as a supertype, so its arrays of arrays are in an order too. -/
theorem assignable_order_nested :
    let r := ((start .empty).serveAll nested).registry
    (start .empty).NamesNoArrays nested ∧
      ∀ a b c, r.isAssignable a b = true → r.isAssignable b c = true → r.isAssignable a c = true := by
  intro r
  have hplain : (start .empty).NamesNoArrays nested :=
    ⟨nofun, nofun, nofun, nofun, trivial⟩
  obtain ⟨-, -, -, htransitive, hinherits⟩ := assignable_order .empty nested
  exact ⟨hplain, htransitive.2 (hinherits hplain)⟩

/-- Arrays of strings and of objects, and a class that extends the arrays of strings. -/
def words : List Request :=
  [.arrayClass .string, .arrayClass .object, .register ((ClassDecl.ofName "t.Words").extending ⟨19⟩)]

/-- Words are an array of strings, and arrays of strings are arrays of objects, but words are none. -/
theorem not_assignable_order : ¬∀ (heap : Heap) (qs : List Request) (a b c : ClassId),
    let r := ((start heap).serveAll qs).registry
    r.isAssignable a b = true → r.isAssignable b c = true → r.isAssignable a c = true := by
  intro h
  have hwords := h .empty words ⟨21⟩ ⟨19⟩ ⟨20⟩
  revert hwords
  decide +kernel

end Store

end MemberAccess
