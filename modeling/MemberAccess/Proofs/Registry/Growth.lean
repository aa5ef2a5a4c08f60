import MemberAccess.Core.Classes
import MemberAccess.Registry.Hierarchy

/-!
# Growth of a registry

A host changes a registry in three ways: it registers a class, it asks for an array class, and it
retires a class. Classes keep their positions through all of them, and retirement is for good.

* `Registry.GrowsTo`: a later registry holds the classes of an earlier one, each where it was.
* `Registry.SteadyTo`: a later registry in which no more classes have been retired.
* `apply_cases`: what a change can do.
* `growsTo_apply`, `growsTo_applyAll`: a registry grows with one change, and with any number.
-/

namespace MemberAccess

/-- What a host does to a registry. -/
inductive Registry.Change where
  | register (d : ClassDecl)
  | arrayClass (component : Ty)
  | retire (c : ClassId)

namespace Registry

/-- The registry after a change; a class that cannot be registered changes nothing. -/
def apply (r : Registry) : Change → Registry
  | .register d => match r.register d with
    | .ok (_, r) => r
    | .error _ => r
  | .arrayClass component => (r.arrayClass component).2
  | .retire c => (r.retire c).2

def applyAll (r : Registry) (changes : List Change) : Registry := changes.foldl apply r

/-- A later state of a registry: more classes after those that were there, and more of them retired. -/
structure GrowsTo (r r' : Registry) : Prop where
  classes : r.classes <+: r'.classes
  retired : r.retired <:+ r'.retired

namespace GrowsTo

variable {r r' r'' : Registry}

theorem refl (r : Registry) : r.GrowsTo r := ⟨List.prefix_rfl, List.suffix_rfl⟩

theorem trans (h : r.GrowsTo r') (h' : r'.GrowsTo r'') : r.GrowsTo r'' :=
  ⟨h.classes.trans h'.classes, h.retired.trans h'.retired⟩

theorem size_le (h : r.GrowsTo r') : r.size ≤ r'.size := h.classes.length_le

/-- **A class keeps its position.** -/
theorem class?_eq (h : r.GrowsTo r') {c : ClassId} (hc : c.index < r.size) : r'.class? c = r.class? c := by
  obtain ⟨more, hmore⟩ := h.classes
  unfold class?
  rw [← hmore, List.getElem?_append_left hc]

theorem class?_some (h : r.GrowsTo r') {c : ClassId} {d : ClassDef} (hd : r.class? c = some d) :
    r'.class? c = some d := by
  have hc : c.index < r.size := (List.getElem?_eq_some_iff.1 hd).1
  rw [h.class?_eq hc, hd]

/-- Retirement is for good. -/
theorem dead (h : r.GrowsTo r') {c : ClassId} (hc : r.isAlive c = false) : r'.isAlive c = false := by
  simp only [isAlive, Bool.not_eq_false', List.contains_iff_mem] at hc ⊢
  exact h.retired.subset hc

theorem alive (h : r.GrowsTo r') {c : ClassId} (hc : r'.isAlive c = true) : r.isAlive c = true := by
  cases hr : r.isAlive c with
  | true => rfl
  | false => rw [h.dead hr] at hc; exact absurd hc (by decide)

end GrowsTo

/-- A later state of a registry with the same classes retired. -/
structure SteadyTo (r r' : Registry) : Prop where
  classes : r.classes <+: r'.classes
  retired : r'.retired = r.retired

namespace SteadyTo

variable {r r' r'' : Registry}

theorem refl (r : Registry) : r.SteadyTo r := ⟨List.prefix_rfl, rfl⟩

theorem trans (h : r.SteadyTo r') (h' : r'.SteadyTo r'') : r.SteadyTo r'' :=
  ⟨h.classes.trans h'.classes, h'.retired.trans h.retired⟩

theorem growsTo (h : r.SteadyTo r') : r.GrowsTo r' := ⟨h.classes, h.retired ▸ List.suffix_rfl⟩

theorem isAlive_eq (h : r.SteadyTo r') : r'.isAlive = r.isAlive := by
  funext c
  unfold isAlive
  rw [h.retired]

end SteadyTo

theorem growsTo_push (r : Registry) (make : ClassId → ClassDef) : r.GrowsTo (r.push make) :=
  ⟨List.prefix_append _ _, List.suffix_rfl⟩

theorem size_push (r : Registry) (make : ClassId → ClassDef) : (r.push make).size = r.size + 1 := by
  simp [size, push]

/-- A registered class is one that was there or the new one. -/
theorem class?_push {r : Registry} {make : ClassId → ClassDef} {c : ClassId} {d : ClassDef}
    (h : (r.push make).class? c = some d) : r.class? c = some d ∨ c = r.next ∧ d = make r.next := by
  unfold class? push at h
  rcases Nat.lt_trichotomy c.index r.size with hc | hc | hc
  · rw [List.getElem?_append_left hc] at h
    exact Or.inl h
  · -- the position of the new class
    have hnext : c = r.next := by cases c; simp only at hc; subst hc; rfl
    subst hnext
    rw [List.getElem?_append_right (Nat.le_of_eq hc.symm)] at h
    simp only [next, size, Nat.sub_self, List.getElem?_cons_zero, Option.some.injEq] at h
    exact Or.inr ⟨rfl, h.symm⟩
  · rw [List.getElem?_eq_none] at h
    · simp at h
    · simp only [List.length_append, List.length_singleton]; unfold size at hc; omega

theorem mem_classes_iff {r : Registry} {d : ClassDef} :
    d ∈ r.classes ↔ ∃ c, r.class? c = some d := by
  constructor
  · intro h
    obtain ⟨i, hi, rfl⟩ := List.getElem_of_mem h
    exact ⟨⟨i⟩, List.getElem?_eq_getElem hi⟩
  · rintro ⟨c, hc⟩
    exact List.mem_of_getElem? hc

/-- A class can be registered when its name is free and its supertypes are registered. -/
theorem register_ok {r r' : Registry} {d : ClassDecl} {c : ClassId} (h : r.register d = .ok (c, r')) :
    r.named? d.qualifiedName = none ∧ (∀ s ∈ d.superclass, s.index < r.size) ∧
      (∀ i ∈ d.interfaces, i.index < r.size) ∧ c = r.next ∧ r' = r.push (.ofDecl · d) := by
  unfold register at h
  simp only at h
  split at h
  · cases h
  rename_i hname
  split at h
  · cases h
  · cases h
  rename_i hs hi
  simp only [Except.ok.injEq, Prod.mk.injEq] at h
  refine ⟨by simpa using hname, ?_, ?_, h.1.symm, h.2.symm⟩
  · intro s hsd
    rw [Option.mem_def.1 hsd] at hs
    simpa using hs
  · intro i hid
    simpa using List.find?_eq_none.1 hi i hid

theorem arrayClass_cases (r : Registry) (t : Ty) :
    (∃ c, r.arrayOf? t = some c ∧ r.arrayClass t = (c, r)) ∨
      (r.arrayOf? t = none ∧ r.arrayClass t = (r.next, r.push (.ofArray · (r.typeName t ++ "[]") t))) := by
  unfold arrayClass
  cases h : r.arrayOf? t with
  | some c => exact Or.inl ⟨c, rfl, rfl⟩
  | none => exact Or.inr ⟨rfl, rfl⟩

/-- A class is retired when it is registered and alive; otherwise nothing happens. -/
theorem retire_cases (r : Registry) (c : ClassId) :
    ((r.class? c).isSome = true ∧ r.isAlive c = true ∧
        r.retire c = (true, { r with retired := c :: r.retired })) ∨
      r.retire c = (false, r) := by
  unfold retire
  cases hc : (r.class? c).isSome <;> cases ha : r.isAlive c <;> simp

/-- **What a change can do**: nothing, or add a class whose name is free and whose supertypes are
registered, or add the array class of a component that has none, or retire a class that is alive. -/
theorem apply_cases (r : Registry) (change : Change) :
    r.apply change = r ∨
    (∃ d, change = .register d ∧ r.named? d.qualifiedName = none ∧
      (∀ s ∈ d.superclass, s.index < r.size) ∧ (∀ i ∈ d.interfaces, i.index < r.size) ∧
      r.apply change = r.push (.ofDecl · d)) ∨
    (∃ t, change = .arrayClass t ∧ r.arrayOf? t = none ∧
      r.apply change = r.push (.ofArray · (r.typeName t ++ "[]") t)) ∨
    (∃ c, change = .retire c ∧ (r.class? c).isSome = true ∧ r.isAlive c = true ∧
      r.apply change = { r with retired := c :: r.retired }) := by
  cases change with
  | register d =>
    simp only [apply]
    cases h : r.register d with
    | error f => exact Or.inl rfl
    | ok answer =>
      obtain ⟨hname, hs, hi, -, hr⟩ := register_ok h
      exact Or.inr (Or.inl ⟨d, rfl, hname, hs, hi, hr⟩)
  | arrayClass t =>
    simp only [apply]
    rcases arrayClass_cases r t with ⟨c, -, h⟩ | ⟨hnone, h⟩ <;> rw [h]
    · exact Or.inl rfl
    · exact Or.inr (Or.inr (Or.inl ⟨t, rfl, hnone, rfl⟩))
  | retire c =>
    simp only [apply]
    rcases retire_cases r c with ⟨hc, ha, h⟩ | h <;> rw [h]
    · exact Or.inr (Or.inr (Or.inr ⟨c, rfl, hc, ha, rfl⟩))
    · exact Or.inl rfl

theorem growsTo_apply (r : Registry) (change : Change) : r.GrowsTo (r.apply change) := by
  rcases apply_cases r change with h | ⟨d, -, -, -, -, h⟩ | ⟨t, -, -, h⟩ | ⟨c, -, -, -, h⟩ <;> rw [h]
  · exact .refl r
  · exact growsTo_push r _
  · exact growsTo_push r _
  · exact ⟨List.prefix_rfl, List.suffix_cons _ _⟩

/-- A change that retires no class leaves the same classes retired. -/
theorem steadyTo_apply (r : Registry) {change : Change} (h : ∀ c, change ≠ .retire c) :
    r.SteadyTo (r.apply change) := by
  rcases apply_cases r change with e | ⟨d, -, -, -, -, e⟩ | ⟨t, -, -, e⟩ | ⟨c, hc, -⟩
  · rw [e]
    exact .refl r
  · rw [e]
    exact ⟨List.prefix_append _ _, rfl⟩
  · rw [e]
    exact ⟨List.prefix_append _ _, rfl⟩
  · exact absurd hc (h c)

theorem growsTo_applyAll (r : Registry) (changes : List Change) : r.GrowsTo (r.applyAll changes) := by
  induction changes generalizing r with
  | nil => exact .refl r
  | cons change rest ih => exact (growsTo_apply r change).trans (ih (r.apply change))

end Registry

end MemberAccess
