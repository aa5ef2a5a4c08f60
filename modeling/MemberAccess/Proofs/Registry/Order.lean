import Mathlib.Data.List.Nodup
import MemberAccess.Proofs.Registry.Growth

/-!
# The order of a hierarchy

A class that is registered names supertypes that came before it. The core classes come all at once and
some of them name interfaces that stand after them, so positions alone do not order the hierarchy.
Their **heights** do: the positions, with the two interfaces `CharSequence` and `Comparable` moved down
below the boxes.

* `Registry.Proper`: what every registry that a host can make satisfies.
* `proper_initial`, `proper_apply`, `proper_applyAll`: it holds at the start and is kept.
-/

namespace MemberAccess

/-- How high a class stands at most: above all of its supertypes. -/
def ClassId.height (c : ClassId) : Nat :=
  if c.index < 2 then c.index
  else if c.index < 10 then c.index + 2
  else if c.index < 12 then c.index - 8
  else c.index

/-- Among at least the core classes, the heights are those of the positions. -/
theorem ClassId.height_lt {c : ClassId} {n : Nat} (hn : coreCount ≤ n) (hc : c.index < n) : c.height < n := by
  unfold coreCount at hn
  unfold height
  split
  · exact hc
  · split
    · omega
    · split <;> omega

/-- After the core classes, height is position. -/
theorem ClassId.height_eq {c : ClassId} (hc : coreCount ≤ c.index) : c.height = c.index := by
  unfold coreCount at hc
  unfold height
  rw [if_neg (by omega), if_neg (by omega), if_neg (by omega)]

/-- The members of a class are declared by it. -/
structure ClassDef.OwnsMembers (d : ClassDef) : Prop where
  methods : ∀ m ∈ d.methods, m.declaring = d.id
  fields : ∀ f ∈ d.fields, f.declaring = d.id
  constructors : ∀ c ∈ d.constructors, c.declaring = d.id

theorem ClassDef.ownsMembers_ofDecl (c : ClassId) (d : ClassDecl) : (ofDecl c d).OwnsMembers := by
  refine ⟨?_, ?_, ?_⟩
  · intro m hm
    obtain ⟨i, hi, rfl⟩ := List.mem_mapIdx.1 hm
    rfl
  · intro f hf
    obtain ⟨i, hi, rfl⟩ := List.mem_mapIdx.1 hf
    rfl
  · intro k hk
    obtain ⟨i, hi, rfl⟩ := List.mem_mapIdx.1 hk
    rfl

theorem ClassDef.ownsMembers_ofArray (c : ClassId) (name : String) (t : Ty) :
    (ofArray c name t).OwnsMembers := by
  refine ⟨?_, ?_, ?_⟩ <;> intro m hm <;> simp [ofArray] at hm

theorem ClassDef.mem_supertypes {d : ClassDef} {s : ClassId} (hs : s ∈ d.supertypes) :
    s ∈ d.interfaces ∨ s ∈ d.superclass ∨ s = .object := by
  unfold supertypes at hs
  rcases List.mem_append.1 hs with hs | hs
  · exact Or.inl hs
  cases hd : d.superclass with
  | some t =>
    rw [hd] at hs
    exact Or.inr (Or.inl (by rw [List.mem_singleton.1 hs]; rfl))
  | none =>
    rw [hd] at hs
    simp only at hs
    split at hs
    · cases hs
    · exact Or.inr (Or.inr (List.mem_singleton.1 hs))

theorem ClassDef.superclass_ofDecl {c s : ClassId} {d : ClassDecl} (hs : s ∈ (ofDecl c d).superclass) :
    s ∈ d.superclass ∨ s = .object := by
  unfold ofDecl at hs
  simp only at hs
  split at hs
  · exact Or.inr (Option.some.inj hs).symm
  · exact Or.inl hs

namespace Registry

/-- What every registry that a host can make satisfies. -/
structure Proper (r : Registry) : Prop where
  core : ClassId.coreCount ≤ r.size
  id : ∀ {c d}, r.class? c = some d → d.id = c
  owns : ∀ {c d}, r.class? c = some d → d.OwnsMembers
  /-- supertypes are registered and lie lower -/
  above : ∀ {c d}, r.class? c = some d → ∀ s ∈ d.supertypes, s.index < r.size ∧ s.height < c.height
  /-- a declared class can be told by its name from every other declared one -/
  names : ∀ {c c' d d'}, r.class? c = some d → r.class? c' = some d' → d.isArray = false →
    d'.isArray = false → d.qualifiedName = d'.qualifiedName → d = d'
  bare : ∀ {c d}, r.class? c = some d → d.isArray = true → d.constructors = []

theorem Proper.interface_above {r : Registry} (hp : r.Proper) {c : ClassId} {d : ClassDef} (hd : r.class? c = some d)
    {i : ClassId} (hi : i ∈ d.interfaces) : i.index < r.size ∧ i.height < c.height :=
  hp.above hd i (List.mem_append_left _ hi)

theorem Proper.superclass_above {r : Registry} (hp : r.Proper) {c s : ClassId} {d : ClassDef} (hd : r.class? c = some d)
    (hs : d.superclass = some s) : s.index < r.size ∧ s.height < c.height := by
  apply hp.above hd s
  unfold ClassDef.supertypes
  rw [hs]
  exact List.mem_append_right _ List.mem_cons_self

theorem index_lt {r : Registry} {c : ClassId} {d : ClassDef} (h : r.class? c = some d) : c.index < r.size :=
  (List.getElem?_eq_some_iff.1 h).1

theorem exists_class {r : Registry} {c : ClassId} (h : c.index < r.size) : ∃ d, r.class? c = some d :=
  ⟨r.classes[c.index], List.getElem?_eq_getElem h⟩

/-- The core classes are declared, each at its position. -/
theorem class?_initial {c : ClassId} {d : ClassDef} (h : initial.class? c = some d) :
    ∃ decl, d = .ofDecl c decl := by
  unfold class? initial at h
  rw [List.getElem?_mapIdx, Option.map_eq_some_iff] at h
  obtain ⟨decl, -, rfl⟩ := h
  exact ⟨decl, rfl⟩

theorem proper_initial : initial.Proper where
  core := by decide
  id h := by obtain ⟨decl, rfl⟩ := class?_initial h; rfl
  owns h := by obtain ⟨decl, rfl⟩ := class?_initial h; exact ClassDef.ownsMembers_ofDecl _ decl
  above := by
    -- a check of every core class, which is why the heights have to be computable
    have hall : ∀ d ∈ initial.classes, ∀ s ∈ d.supertypes, s.index < initial.size ∧ s.height < d.id.height := by
      decide
    intro c d h s hs
    have hid : d.id = c := by obtain ⟨decl, rfl⟩ := class?_initial h; rfl
    rw [← hid]
    exact hall d (mem_classes_iff.2 ⟨c, h⟩) s hs
  names := by
    have hnodup : (initial.classes.map (·.qualifiedName)).Nodup := by decide +kernel
    intro c c' d d' h h' _ _ hname
    exact List.inj_on_of_nodup_map hnodup (mem_classes_iff.2 ⟨c, h⟩) (mem_classes_iff.2 ⟨c', h'⟩) hname
  bare h ha := by obtain ⟨decl, rfl⟩ := class?_initial h; cases ha

theorem named?_eq_none_iff {r : Registry} {name : String} :
    r.named? name = none ↔ ∀ d ∈ r.classes, d.qualifiedName ≠ name := by
  unfold named?
  simp [List.find?_eq_none]

theorem named?_some {r : Registry} {name : String} {d : ClassDef} (h : r.named? name = some d) :
    d.qualifiedName = name ∧ ∃ c, r.class? c = some d := by
  unfold named? at h
  refine ⟨by simpa using List.find?_some h, mem_classes_iff.1 ?_⟩
  exact List.mem_reverse.1 (List.mem_of_find?_eq_some h)

section Push

variable {r : Registry} {make : ClassId → ClassDef}

/-- A proper registry stays proper with one more class, if that class fits in. -/
theorem proper_push (h : r.Proper) (hid : (make r.next).id = r.next) (howns : (make r.next).OwnsMembers)
    (habove : ∀ s ∈ (make r.next).supertypes, s.index < r.size)
    (hname : (make r.next).isArray = false → r.named? (make r.next).qualifiedName = none)
    (hbare : (make r.next).isArray = true → (make r.next).constructors = []) : (r.push make).Proper where
  core := by rw [size_push]; exact Nat.le_succ_of_le h.core
  id hc := by
    rcases class?_push hc with hc | ⟨rfl, rfl⟩
    · exact h.id hc
    · exact hid
  owns hc := by
    rcases class?_push hc with hc | ⟨rfl, rfl⟩
    · exact h.owns hc
    · exact howns
  above := by
    intro c d hc s hs
    rw [size_push]
    rcases class?_push hc with hc | ⟨rfl, rfl⟩
    · obtain ⟨h1, h2⟩ := h.above hc s hs
      exact ⟨Nat.lt_succ_of_lt h1, h2⟩
    · -- the new class stands at the next position, which is its height, and all others are below
      have hlt := habove s hs
      refine ⟨Nat.lt_succ_of_lt hlt, ?_⟩
      rw [ClassId.height_eq (c := r.next) h.core]
      exact ClassId.height_lt h.core hlt
  names := by
    intro c c' d d' hc hc' ha ha' hn
    -- a declared class only comes in under a name that is free
    rcases class?_push hc with hc | ⟨-, rfl⟩ <;> rcases class?_push hc' with hc' | ⟨-, rfl⟩
    · exact h.names hc hc' ha ha' hn
    · exact absurd hn (named?_eq_none_iff.1 (hname ha') d (mem_classes_iff.2 ⟨c, hc⟩))
    · exact absurd hn.symm (named?_eq_none_iff.1 (hname ha) d' (mem_classes_iff.2 ⟨c', hc'⟩))
    · rfl
  bare hc ha := by
    rcases class?_push hc with hc | ⟨rfl, rfl⟩
    · exact h.bare hc ha
    · exact hbare ha

end Push

/-- Retiring a class changes no class. -/
theorem proper_retired {r : Registry} (h : r.Proper) (dead : List ClassId) :
    ({ r with retired := dead } : Registry).Proper where
  core := h.core
  id := h.id
  owns := h.owns
  above := h.above
  names := h.names
  bare := h.bare

/-- **A change keeps a registry proper.** -/
theorem proper_apply {r : Registry} (h : r.Proper) (change : Change) : (r.apply change).Proper := by
  rcases apply_cases r change with e | ⟨d, -, hname, hsuper, hinter, e⟩ | ⟨t, -, -, e⟩ | ⟨c, -, -, -, e⟩ <;>
    rw [e]
  · exact h
  · refine proper_push h rfl (ClassDef.ownsMembers_ofDecl _ d) ?_ (fun _ => hname) (fun ha => by cases ha)
    intro s hs
    have hroot : ClassId.object.index < r.size := Nat.lt_of_lt_of_le (by decide) h.core
    rcases ClassDef.mem_supertypes hs with hs | hs | rfl
    · exact hinter s hs
    · rcases ClassDef.superclass_ofDecl hs with hs | rfl
      · exact hsuper s hs
      · exact hroot
    · exact hroot
  · refine proper_push h rfl (ClassDef.ownsMembers_ofArray _ _ t) ?_ (fun ha => by cases ha) (fun _ => rfl)
    intro s hs
    -- an array class has the root for its only supertype
    have : s = .object := by simpa [ClassDef.ofArray, ClassDef.supertypes] using hs
    rw [this]
    exact Nat.lt_of_lt_of_le (by decide) h.core
  · exact proper_retired h _

theorem proper_applyAll {r : Registry} (h : r.Proper) (changes : List Change) : (r.applyAll changes).Proper := by
  induction changes generalizing r with
  | nil => exact h
  | cons change rest ih => exact ih (proper_apply h change)

end Registry

end MemberAccess
