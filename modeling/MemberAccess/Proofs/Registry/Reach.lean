import Mathlib.Logic.Relation
import MemberAccess.Proofs.Registry.Distance
import MemberAccess.Proofs.Registry.Linearization

/-!
# Subtypes and walks

Two searches lead up from a class. A distance counts edges of any kind, so a class is assignable to whatever
a path leads to. A lineage goes up the superclass chain and from there along declared interfaces only, so it
misses what lies above the superclass of an interface, or above an interface that has been made a superclass.

* `Registry.Reaches`, `Registry.Walks`: the two kinds of paths.
* `mem_lineage_iff`: a lineage holds the classes that walks lead to.
* `steps_isSome_iff`, `isAssignable_cases`: a class is assignable to those that paths lead to.
* `Walks.reaches`, `isAssignable_of_walks`: walks are paths, so a class is assignable to all of its lineage.
* `walks_of_reaches`: paths are walks where interfaces and classes are kept apart (`Registry.KeptApart`).
-/

namespace MemberAccess

namespace Registry

open Relation (ReflTransGen)

/-- An edge of any kind. -/
def Edge (r : Registry) (c s : ClassId) : Prop := s ∈ r.supertypes c

def Extends (r : Registry) (c s : ClassId) : Prop := r.superclass? c = some s

def Declares (r : Registry) (c i : ClassId) : Prop := i ∈ r.interfaces c

/-- A path along edges of any kind leads from a class to another. -/
def Reaches (r : Registry) : ClassId → ClassId → Prop := ReflTransGen r.Edge

/-- A path up the superclass chain and then along declared interfaces leads from a class to another. -/
def Walks (r : Registry) (c e : ClassId) : Prop :=
  ∃ s, ReflTransGen r.Extends c s ∧ ReflTransGen r.Declares s e

variable {r : Registry} {c s e : ClassId} {d : ClassDef}

theorem extends_iff (hd : r.class? c = some d) : r.Extends c s ↔ d.superclass = some s := by
  simp [Extends, superclass?, hd]

theorem declares_iff (hd : r.class? c = some d) : r.Declares c s ↔ s ∈ d.interfaces := by
  simp [Declares, interfaces, hd]

theorem edge_iff (hd : r.class? c = some d) : r.Edge c s ↔ s ∈ d.supertypes := by
  simp [Edge, supertypes, hd]

/-! ## What a lineage holds -/

theorem mem_unfolds_iff {interfaces : List ClassId} {tree : List ClassDef}
    (htree : r.Unfolds interfaces tree) {x : ClassDef} :
    x ∈ tree ↔ ∃ i ∈ interfaces, ∃ e, r.class? e = some x ∧ ReflTransGen r.Declares i e := by
  induction htree with
  | nil => simp
  | @cons i d rest below after hd _ _ ihbelow ihafter =>
    -- from the interface itself: it, or what lies below it in the tree
    have hfirst : (∃ e, r.class? e = some x ∧ ReflTransGen r.Declares i e) ↔ x = d ∨ x ∈ below := by
      rw [ihbelow]
      constructor
      · rintro ⟨e, he, hpath⟩
        rcases ReflTransGen.cases_head hpath with rfl | ⟨j, hj, hpath⟩
        · rw [hd] at he
          exact .inl (Option.some.inj he).symm
        · exact .inr ⟨j, (declares_iff hd).1 hj, e, he, hpath⟩
      · rintro (rfl | ⟨j, hj, e, he, hpath⟩)
        · exact ⟨i, hd, .refl⟩
        · exact ⟨e, he, .head ((declares_iff hd).2 hj) hpath⟩
    simp only [List.mem_cons, List.mem_append, exists_eq_or_imp, hfirst, ihafter, or_assoc]

theorem mem_linearized_iff {L : List ClassDef} (hL : r.Linearized d L)
    (hd : r.class? c = some d) {x : ClassDef} : x ∈ L ↔ ∃ e, r.class? e = some x ∧ r.Walks c e := by
  -- what a walk finds without going up the superclass chain
  have hhere {c : ClassId} {d : ClassDef} {tree : List ClassDef} (hd : r.class? c = some d)
      (htree : r.Unfolds d.interfaces tree) :
      (∃ e, r.class? e = some x ∧ ReflTransGen r.Declares c e) ↔ x = d ∨ x ∈ tree := by
    have hsingle : r.Unfolds [c] (d :: (tree ++ [])) := .cons hd htree .nil
    have := mem_unfolds_iff hsingle (x := x)
    simpa using this.symm
  induction hL generalizing c with
  | @top d tree hs htree =>
    rw [List.mem_cons, ← hhere hd htree]
    constructor
    · rintro ⟨e, he, hpath⟩
      exact ⟨e, he, c, .refl, hpath⟩
    · rintro ⟨e, he, s, hup, hpath⟩
      rcases ReflTransGen.cases_head hup with rfl | ⟨s', hs', -⟩
      · exact ⟨e, he, hpath⟩
      · rw [extends_iff hd, hs] at hs'
        cases hs'
  | @extend d s d' tree rest hs hd' htree _ ih =>
    rw [List.mem_cons, List.mem_append, ← or_assoc, ← hhere hd htree]
    refine (or_congr_right (ih hd')).trans ?_
    constructor
    · rintro (⟨e, he, hpath⟩ | ⟨e, he, t, hup, hpath⟩)
      · exact ⟨e, he, c, .refl, hpath⟩
      · exact ⟨e, he, t, .head ((extends_iff hd).2 hs) hup, hpath⟩
    · rintro ⟨e, he, t, hup, hpath⟩
      rcases ReflTransGen.cases_head hup with rfl | ⟨s', hs', hup⟩
      · exact .inl ⟨e, he, hpath⟩
      · rw [extends_iff hd, hs] at hs'
        cases hs'
        exact .inr ⟨e, he, t, hup, hpath⟩

/-- **A lineage holds the classes that walks lead to.** -/
theorem mem_lineage_iff (hp : r.Proper) (hd : r.class? c = some d) {x : ClassDef} :
    x ∈ r.lineage d ↔ ∃ e, r.class? e = some x ∧ r.Walks c e := by
  obtain ⟨L, hL⟩ := exists_linearized hp hd
  have hskips := skips_lineage hp hd hL
  rw [← mem_linearized_iff hL hd]
  constructor
  · exact fun hx => hskips.subset hx
  · intro hx
    rcases hskips.mem hx with hx | hx
    · cases hx
    · exact hx

/-! ## What a class is assignable to -/

theorem mem_above_iff {layer : List ClassId} : s ∈ r.above layer ↔ ∃ c ∈ layer, r.Edge c s := by
  unfold above Edge
  rw [List.mem_eraseDups, List.mem_flatMap]

/-- A climb follows a path. -/
theorem reaches_of_climb {n k : Nat} {layer : List ClassId} (h : r.climb s n layer = some k) :
    ∃ c ∈ layer, r.Reaches c s := by
  induction n generalizing layer k with
  | zero => cases h
  | succ n ih =>
    unfold climb at h
    split at h
    · rename_i hmem
      exact ⟨s, hmem, .refl⟩
    · obtain ⟨k', hk', -⟩ := Option.map_eq_some_iff.1 h
      obtain ⟨b, hb, hpath⟩ := ih hk'
      obtain ⟨c, hc, hedge⟩ := mem_above_iff.1 hb
      exact ⟨c, hc, .head hedge hpath⟩

/-- A bound above the heights in a layer is enough for a climb to find what a path leads to. -/
theorem climb_of_reaches (hp : r.Proper) {n : Nat} {layer : List ClassId} (hlow : ∀ c ∈ layer, c.height < n)
    (h : ∃ c ∈ layer, r.Reaches c s) : (r.climb s n layer).isSome = true := by
  induction n generalizing layer with
  | zero =>
    obtain ⟨c, hc, -⟩ := h
    exact absurd (hlow c hc) (Nat.not_lt_zero _)
  | succ n ih =>
    unfold climb
    split
    · rfl
    · rename_i hnot
      rw [Option.isSome_map]
      apply ih
      · intro b hb
        obtain ⟨c, hc, -, hlt⟩ := mem_above hp hb
        have := hlow c hc
        omega
      · obtain ⟨c, hc, hpath⟩ := h
        rcases ReflTransGen.cases_head hpath with rfl | ⟨b, hedge, hpath⟩
        · exact absurd hc hnot
        · exact ⟨b, mem_above_iff.2 ⟨c, hc, hedge⟩, hpath⟩

/-- **There is a distance exactly when there is a path.** -/
theorem steps_isSome_iff (hp : r.Proper) (hc : c.index < r.size) :
    (r.steps c s).isSome = true ↔ r.Reaches c s := by
  unfold steps
  constructor
  · intro h
    obtain ⟨k, hk⟩ := Option.isSome_iff_exists.1 h
    obtain ⟨b, hb, hpath⟩ := reaches_of_climb hk
    rwa [List.mem_singleton.1 hb] at hpath
  · intro h
    refine climb_of_reaches hp ?_ ⟨c, List.mem_singleton_self c, h⟩
    intro b hb
    rw [List.mem_singleton.1 hb]
    exact ClassId.height_lt hp.core hc

/-- A class that is no array is a supertype exactly when a path leads to it. -/
theorem isAssignable_iff_reaches (hp : r.Proper) {t : ClassDef} (hd : r.class? c = some d)
    (ht : r.class? s = some t) (harray : t.isArray = false) : r.isAssignable c s = true ↔ r.Reaches c s := by
  have hcomponent : t.component = none := by simpa [ClassDef.isArray] using harray
  unfold isAssignable
  rw [distance_eq_steps hd ht hcomponent]
  split
  · rename_i heq
    subst heq
    exact ⟨fun _ => .refl, fun _ => rfl⟩
  · exact steps_isSome_iff hp (index_lt hd)

/-- Beyond paths, only array classes are assignable to others, and only to array classes. -/
theorem isAssignable_cases (hp : r.Proper) (h : r.isAssignable c s = true) :
    r.Reaches c s ∨ ∃ d t, r.class? c = some d ∧ r.class? s = some t ∧ d.isArray = true ∧ t.isArray = true := by
  unfold isAssignable distance distanceWithin at h
  split at h
  · rename_i heq
    exact .inl (heq ▸ .refl)
  · split at h
    · rename_i d t hd ht
      split at h
      · rename_i a b ha hb
        exact .inr ⟨d, t, hd, ht, by simp [ClassDef.isArray, ha], by simp [ClassDef.isArray, hb]⟩
      · cases h
      · exact .inl ((steps_isSome_iff hp (index_lt hd)).1 h)
    · cases h

/-! ## Walks and paths -/

theorem Extends.edge (h : r.Extends c s) : r.Edge c s := by
  obtain ⟨d, hd, hs⟩ := Option.bind_eq_some_iff.1 h
  rw [edge_iff hd]
  unfold ClassDef.supertypes
  rw [hs]
  exact List.mem_append_right _ List.mem_cons_self

theorem Declares.edge (h : r.Declares c s) : r.Edge c s := by
  unfold Declares interfaces at h
  cases hd : r.class? c with
  | none =>
    rw [hd] at h
    cases h
  | some d =>
    rw [hd] at h
    exact (edge_iff hd).2 (List.mem_append_left _ h)

/-- **Walks are paths.** -/
theorem Walks.reaches (h : r.Walks c e) : r.Reaches c e := by
  obtain ⟨s, hup, hacross⟩ := h
  have hfirst : r.Reaches c s := ReflTransGen.mono (fun _ _ => Extends.edge) c s hup
  exact hfirst.trans (ReflTransGen.mono (fun _ _ => Declares.edge) s e hacross)

theorem Walks.refl (r : Registry) (c : ClassId) : r.Walks c c := ⟨c, .refl, .refl⟩

/-- Above a class, interfaces and classes are kept apart: no class on the superclass chain is an interface, and
no declared interface extends anything but the root. -/
structure KeptApart (r : Registry) (c : ClassId) : Prop where
  chain : ∀ {s d}, ReflTransGen r.Extends c s → r.class? s = some d → d.isInterface = false
  interfaces : ∀ {b i s}, r.Reaches c b → r.Declares b i → r.Extends i s → s = .object

/-- Every class was declared, or made as an array class. -/
def Made (r : Registry) : Prop := ∀ c d, r.class? c = some d →
  (∃ decl, d = .ofDecl c decl) ∨ ∃ name t, d = .ofArray c name t

theorem made_initial : initial.Made := fun _ _ h => .inl (class?_initial h)

theorem made_apply (h : r.Made) (change : Change) : (r.apply change).Made := by
  rcases apply_cases r change with e | ⟨decl, -, -, -, -, e⟩ | ⟨t, -, -, e⟩ | ⟨c, -, -, -, e⟩ <;> rw [e]
  · exact h
  · intro c d hd
    rcases class?_push hd with hd | ⟨rfl, rfl⟩
    · exact h c d hd
    · exact .inl ⟨decl, rfl⟩
  · intro c d hd
    rcases class?_push hd with hd | ⟨rfl, rfl⟩
    · exact h c d hd
    · exact .inr ⟨_, t, rfl⟩
  · exact h

theorem made_applyAll (h : r.Made) (changes : List Change) : (r.applyAll changes).Made := by
  induction changes generalizing r with
  | nil => exact h
  | cons change rest ih => exact ih (made_apply h change)

/-- Of the classes that are no interfaces, only the root has no superclass. -/
theorem Made.eq_object (h : r.Made) (hd : r.class? c = some d) (hclass : d.isInterface = false)
    (hs : d.superclass = none) : c = .object := by
  rcases h c d hd with ⟨decl, rfl⟩ | ⟨name, t, rfl⟩
  · by_contra hc
    simp only [ClassDef.ofDecl] at hclass hs
    rw [hclass] at hs
    cases hdecl : decl.superclass <;> simp [hdecl, hc] at hs
  · cases hs

/-- A superclass chain without interfaces ends with the root. -/
theorem walks_object (hp : r.Proper) (hmade : r.Made) (hc : c.index < r.size)
    (hchain : ∀ {s d}, ReflTransGen r.Extends c s → r.class? s = some d → d.isInterface = false) :
    ReflTransGen r.Extends c .object := by
  -- by induction on the height, as a superclass lies lower
  generalize hn : c.height = n
  induction n using Nat.strongRecOn generalizing c with
  | ind n ih =>
    obtain ⟨d, hd⟩ := exists_class hc
    cases hs : d.superclass with
    | none =>
      rw [hmade.eq_object hd (hchain .refl hd) hs]
    | some s =>
      obtain ⟨hknown, hlt⟩ := hp.superclass_above hd hs
      have hup : r.Extends c s := (extends_iff hd).2 hs
      exact .head hup (ih s.height (hn ▸ hlt) hknown (fun hpath => hchain (.head hup hpath)) rfl)

/-- **Paths are walks where interfaces and classes are kept apart.** -/
theorem walks_of_reaches (hp : r.Proper) (hmade : r.Made) (hc : c.index < r.size) (hapart : r.KeptApart c)
    (h : r.Reaches c e) : r.Walks c e := by
  have hroot : r.Walks c .object := ⟨.object, walks_object hp hmade hc hapart.chain, .refl⟩
  induction h with
  | refl => exact .refl r c
  | @tail b e hpath hedge ih =>
    obtain ⟨s, hup, hacross⟩ := ih
    cases hb : r.class? b with
    | none => simp [Edge, supertypes, hb] at hedge
    | some d =>
      rcases ClassDef.mem_supertypes ((edge_iff hb).1 hedge) with hi | hs | rfl
      · exact ⟨s, hup, hacross.tail ((declares_iff hb).2 hi)⟩
      · have hextends : r.Extends b e := (extends_iff hb).2 hs
        rcases ReflTransGen.cases_tail hacross with rfl | ⟨a, hpath', hdeclares⟩
        · -- still on the superclass chain
          exact ⟨e, hup.tail hextends, .refl⟩
        · -- above a declared interface there is only the root
          have hreach : r.Reaches c a := Walks.reaches ⟨s, hup, hpath'⟩
          rw [hapart.interfaces hreach hdeclares hextends]
          exact hroot
      · exact hroot

/-- Classes extend classes only, and declared interfaces extend nothing but the root. -/
def Conventional (r : Registry) : Prop := ∀ d ∈ r.classes,
  (d.isInterface = false → ∀ s ∈ d.superclass, ∀ e ∈ r.class? s, e.isInterface = false) ∧
    ∀ i ∈ d.interfaces, ∀ s ∈ r.superclass? i, s = .object

theorem Conventional.keptApart (h : r.Conventional) (hd : r.class? c = some d) (hclass : d.isInterface = false) :
    r.KeptApart c where
  chain := by
    intro s e hpath he
    induction hpath generalizing e with
    | refl =>
      rw [hd] at he
      cases he
      exact hclass
    | @tail b s _ hup ih =>
      obtain ⟨d', hd', hs⟩ := Option.bind_eq_some_iff.1 hup
      exact (h d' (mem_classes_iff.2 ⟨b, hd'⟩)).1 (ih hd') s hs e he
  interfaces := by
    intro b i s _ hdeclares hextends
    cases hb : r.class? b with
    | none => simp [Declares, interfaces, hb] at hdeclares
    | some d' => exact (h d' (mem_classes_iff.2 ⟨b, hb⟩)).2 i ((declares_iff hb).1 hdeclares) s hextends

/-! ## Array classes -/

/-- An array class has no methods, and nothing above it but the root. -/
theorem Made.array (h : r.Made) (hd : r.class? c = some d) (harray : d.isArray = true) :
    d.supertypes = [.object] ∧ d.methods = [] := by
  rcases h c d hd with ⟨decl, rfl⟩ | ⟨name, t, rfl⟩
  · cases harray
  · exact ⟨rfl, rfl⟩

theorem Made.array_extends (h : r.Made) (hd : r.class? c = some d) (harray : d.isArray = true) :
    r.Extends c .object := by
  rw [extends_iff hd]
  rcases h c d hd with ⟨decl, rfl⟩ | ⟨name, t, rfl⟩
  · cases harray
  · rfl

theorem not_edge_object (hinit : initial.GrowsTo r) : ¬r.Edge .object s := by
  have hroot : initial.supertypes .object = [] := by decide
  unfold Edge
  rw [supertypes_growsTo hinit (by decide), hroot]
  exact List.not_mem_nil

theorem reaches_array (hinit : initial.GrowsTo r) (hmade : r.Made) (hd : r.class? c = some d)
    (harray : d.isArray = true) (h : r.Reaches c e) : e = c ∨ e = .object := by
  induction h with
  | refl => exact .inl rfl
  | @tail b e _ hedge ih =>
    rcases ih with rfl | rfl
    · rw [edge_iff hd, (hmade.array hd harray).1] at hedge
      exact .inr (List.mem_singleton.1 hedge)
    · exact absurd hedge (not_edge_object hinit)

/-- Array classes are assignable to array classes and to the root. -/
theorem eq_object_of_isAssignable (hinit : initial.GrowsTo r) (hp : r.Proper) (hmade : r.Made)
    (hd : r.class? c = some d) (harray : d.isArray = true) {t : ClassDef} (ht : r.class? e = some t)
    (hplain : t.isArray = false) (h : r.isAssignable c e = true) : e = .object := by
  rw [isAssignable_iff_reaches hp hd ht hplain] at h
  rcases reaches_array hinit hmade hd harray h with rfl | rfl
  · rw [ht] at hd
    cases hd
    rw [hplain] at harray
    cases harray
  · rfl

/-- **A class is assignable to whatever its lineage holds.** -/
theorem isAssignable_of_walks (hinit : initial.GrowsTo r) (hp : r.Proper) (hmade : r.Made)
    (hd : r.class? c = some d) {t : ClassDef} (ht : r.class? e = some t) (h : r.Walks c e) :
    r.isAssignable c e = true := by
  cases harray : t.isArray with
  | false => exact (isAssignable_iff_reaches hp hd ht harray).2 h.reaches
  | true =>
    cases hcarray : d.isArray with
    | true =>
      rcases reaches_array hinit hmade hd hcarray h.reaches with rfl | rfl
      · simp [isAssignable, distance_self]
      · -- the root is no array class
        obtain ⟨root, hroot⟩ := exists_class (r := initial) (c := .object) (by decide)
        obtain ⟨decl, rfl⟩ := class?_initial hroot
        rw [hinit.class?_some hroot] at ht
        cases ht
        cases harray
    | false =>
      have hcomponent : d.component = none := by simpa [ClassDef.isArray] using hcarray
      unfold isAssignable distance distanceWithin
      split
      · rfl
      · simp only [hd, ht, hcomponent]
        exact (steps_isSome_iff hp (index_lt hd)).2 h.reaches

end Registry

end MemberAccess
