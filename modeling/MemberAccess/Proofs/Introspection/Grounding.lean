import MemberAccess.Proofs.Introspection.Order
import MemberAccess.Proofs.Introspection.Population
import MemberAccess.Proofs.Registry.Distance

/-!
# Grounded maps

What a map says is borne out by the registry: the fields that it shows are declared by its own class, and
what it has found for a signature can be called with arguments of those types.

* `Introspector.Holds`: the maps that can be held after a touch, and `holds_touch`: no others are.
* `ClassMap.Grounded`, `grounded_touch`: the property, and that touches keep it.
* `Grounded.findMethod`, `Grounded.findField`: the answers of a memory of grounded maps.
* `Grounded.findField_ne_object`: fields are found on other classes than the root.
-/

namespace MemberAccess

variable {P : Policy} {r r' : Registry} {k : Introspector} {c : ClassId}

namespace Introspector

/-- The maps that can be held after a touch: those held before, those that are made, and any of them after
it has looked something up. -/
inductive Holds (k : Introspector) (r : Registry) : ClassMap → Prop
  | before {m} (h : m ∈ k.held) : Holds k r m
  | made {c m} (h : ClassMap.build r k.policy c = some m) (serial : Nat) : Holds k r { m with serial := serial }
  | remember {m} (h : Holds k r m) (s : Signature) : Holds k r (m.remember r s)

theorem holds_mapOf (k : Introspector) (r : Registry) (c : ClassId) :
    ∀ m ∈ (k.mapOf r c).2.held, k.Holds r m := by
  intro m hm
  rcases mapOf_cases k r c with ⟨kept, -, -, e⟩ | ⟨m', -, -, e⟩ | ⟨-, e⟩ <;> rw [e] at hm
  · exact .before hm
  · exact .before (mem_held_purge hm)
  · rcases mem_held_put hm with hmade | hm
    · obtain ⟨m', hm', rfl⟩ := Option.map_eq_some_iff.1 hmade
      exact .made hm' _
    · exact .before hm

/-- **What is held after a touch.** -/
theorem holds_touch (k : Introspector) (r : Registry) (t : Touch) : ∀ m ∈ (k.touch r t).held, k.Holds r m := by
  intro m hm
  cases t with
  | map c => exact holds_mapOf k r c m hm
  | method c s =>
    simp only [touch] at hm
    have hmap := holds_mapOf k r c
    rcases findMethod_cases k r c s with ⟨-, e⟩ | ⟨n, k', hmap', e⟩ <;> rw [e] at hm
    · exact hmap m hm
    · rw [hmap'] at hmap
      rcases mem_held_put hm with hremembered | hm
      · -- the map of the class has looked the signature up
        cases hremembered
        exact .remember (hmap n (mem_held_of_get? (get?_mapOf hmap').1)) s
      · exact hmap m hm
  | constructor name args =>
    simp only [touch] at hm
    rcases findConstructor_cases k r name args with e | ⟨d, -, -, e⟩ <;> rw [e] at hm <;> exact .before hm
  | purge c => exact .before (mem_held_purge hm)
  | held serial s =>
    simp only [touch] at hm
    split at hm
    · rename_i n hn
      rw [held_findInHeld] at hm
      obtain ⟨n', hn', rfl⟩ := List.mem_map.1 hm
      split
      · exact .remember (.before (mem_held_of_held? hn).1) s
      · exact .before hn'
    · exact .before hm

end Introspector

/-- The root class has no fields, in any registry. -/
theorem Registry.fields_object (hinit : initial.GrowsTo r) {d : ClassDef} (hd : r.class? .object = some d) :
    d.fields = [] := by
  obtain ⟨root, hroot, hempty⟩ : ∃ root, initial.class? .object = some root ∧ root.fields = [] := ⟨_, rfl, rfl⟩
  rw [hinit.class?_some hroot] at hd
  cases hd
  exact hempty

/-- The fields of a map are declared by its class, and what it has found can be called. -/
structure ClassMap.Grounded (r : Registry) (m : ClassMap) : Prop where
  own : ∃ d, r.class? m.cls = some d ∧ ∀ f ∈ m.fields, f ∈ d.fields
  found : ∀ {s x}, Assoc.get? s m.index = some (.found x) → (callCost r x.params s.params).isSome = true

/-- A method takes arguments of its own parameter types. -/
theorem callCost_signature (r : Registry) (params : List Ty) :
    (callCost r params (params.map (·.normalized))).isSome = true := by
  have hparam : ∀ t : Ty, (conversionCost r t t.normalized).isSome = true := by
    intro t
    cases t <;> simp [conversionCost, Ty.normalized, Ty.isPrimitive]
  induction params with
  | nil => rfl
  | cons t rest ih =>
    rw [List.map_cons, isSome_callCost_cons, hparam, ih]
    rfl

namespace ClassMap

theorem grounded_made {m : ClassMap} (h : build r P c = some m) (serial : Nat) :
    Grounded r { m with serial := serial } := by
  obtain ⟨d, hd, -, -, rfl⟩ := build_eq_some h
  refine ⟨⟨d, hd, ?_⟩, ?_⟩
  · intro f hf
    change f ∈ P.shownFields d at hf
    unfold Policy.shownFields at hf
    split at hf
    · exact List.mem_of_mem_filter hf
    · cases hf
  · -- what is entered while a map is made has the very signature that it is entered under
    intro s x hx
    simp only [Population.get?_ofLineage] at hx
    obtain ⟨y, hy, hfound⟩ := Option.map_eq_some_iff.1 hx
    have hs : y.signature = s := by simpa using List.find?_some hy
    unfold Declaration.outcome at hfound
    split at hfound
    · cases hfound
      rw [← hs]
      exact callCost_signature r y.method.params
    · cases hfound

theorem Grounded.lookup {m : ClassMap} (h : m.Grounded r) {s : Signature} {x : Method}
    (hx : m.lookup r s = .found x) : (callCost r x.params s.params).isSome = true := by
  unfold ClassMap.lookup at hx
  cases hget : Assoc.get? s m.index with
  | some known =>
    rw [hget] at hx
    simp only at hx
    subst hx
    exact h.found hget
  | none =>
    rw [hget] at hx
    simp only [resolve] at hx
    cases hchoice : choose r (·.params) s.params (m.overloads s.name) with
    | none => rw [hchoice] at hx; cases hx
    | one a =>
      rw [hchoice] at hx
      cases hx
      exact (of_choose_one hchoice).2
    | tie tied => rw [hchoice] at hx; cases hx

theorem Grounded.remember {m : ClassMap} (h : m.Grounded r) (s : Signature) : (m.remember r s).Grounded r where
  own := h.own
  found {s' x} hx := by
    unfold ClassMap.remember at hx
    simp only [Assoc.get?_put] at hx
    split at hx
    · rename_i hs
      subst hs
      exact h.lookup (Option.some.inj hx)
    · exact h.found hx

theorem Grounded.growsTo (hp : r.Proper) (hr : r.GrowsTo r') {m : ClassMap} (h : m.Grounded r) : m.Grounded r' where
  own := by
    obtain ⟨d, hd, hf⟩ := h.own
    exact ⟨d, hr.class?_some hd, hf⟩
  found hx := by
    obtain ⟨cost, hcost⟩ := Option.isSome_iff_exists.1 (h.found hx)
    rw [callCost_some_growsTo hp hr hcost]
    rfl

end ClassMap

namespace Introspector

/-- A memory that holds grounded maps only. -/
def Grounded (r : Registry) (k : Introspector) : Prop := ∀ m ∈ k.held, m.Grounded r

theorem grounded_new (P : Policy) (r : Registry) : Grounded r { policy := P } := fun _ h => by cases h

theorem Holds.grounded (hk : k.Grounded r) {m : ClassMap} (h : k.Holds r m) : m.Grounded r := by
  induction h with
  | before h => exact hk _ h
  | made h serial => exact ClassMap.grounded_made h serial
  | remember _ s ih => exact ih.remember s

/-- **A touch leaves the maps of a memory grounded.** -/
theorem grounded_touch (hk : k.Grounded r) (t : Touch) : (k.touch r t).Grounded r := fun m hm =>
  (k.holds_touch r t m hm).grounded hk

theorem Grounded.growsTo (hp : r.Proper) (hr : r.GrowsTo r') (hk : k.Grounded r) : k.Grounded r' := fun m hm =>
  (hk m hm).growsTo hp hr

/-- The map that is answered for a class is grounded. -/
theorem Grounded.mapOf (hk : k.Grounded r) {m : ClassMap} (h : (k.mapOf r c).1 = some m) : m.Grounded r := by
  have hanswer : k.mapOf r c = (some m, (k.mapOf r c).2) := Prod.ext h rfl
  have hheld := (get?_mapOf hanswer).1
  exact grounded_touch hk (.map c) m (mem_held_of_get? hheld)

/-- **A method that is found** can be called with arguments of the types that it was looked for with. -/
theorem Grounded.findMethod (hk : k.Grounded r) {s : Signature} {x : Method}
    (h : (k.findMethod r c s).1 = .ok (some x)) : (callCost r x.params s.params).isSome = true := by
  rw [findMethod_answer] at h
  cases hm : (k.mapOf r c).1 with
  | none => rw [hm] at h; cases h
  | some m =>
    rw [hm] at h
    simp only [answerOf] at h
    cases hl : m.lookup r s <;> rw [hl] at h <;> cases h
    exact (hk.mapOf hm).lookup hl

/-- A class for which a map is answered is registered, and the map shows its fields. -/
theorem Grounded.own (hk : k.Grounded r) (horder : k.InOrder) {m : ClassMap} (h : (k.mapOf r c).1 = some m) :
    ∃ d, r.class? c = some d ∧ ∀ f ∈ m.fields, f ∈ d.fields := by
  have hanswer : k.mapOf r c = (some m, (k.mapOf r c).2) := Prod.ext h rfl
  rw [← (horder.mapOf r c).cls_eq (get?_mapOf hanswer).1]
  exact (hk.mapOf h).own

/-- **A field that is found** is declared by the class that was asked about. -/
theorem Grounded.findField (hk : k.Grounded r) (horder : k.InOrder) {name : String} {f : Field}
    (h : (k.findField r c name).1 = some f) : ∃ d, r.class? c = some d ∧ f ∈ d.fields := by
  obtain ⟨m, hm, hf⟩ := Option.bind_eq_some_iff.1 h
  obtain ⟨d, hd, hfields⟩ := hk.own horder hm
  exact ⟨d, hd, hfields f (List.mem_reverse.1 (List.mem_of_find?_eq_some hf))⟩

/-- **No field is found on the root class**, for which null passes. -/
theorem Grounded.findField_ne_object (hinit : Registry.initial.GrowsTo r) (hk : k.Grounded r) (horder : k.InOrder)
    {name : String} {f : Field} (h : (k.findField r c name).1 = some f) : c ≠ .object := by
  rintro rfl
  obtain ⟨d, hd, hf⟩ := hk.findField horder h
  rw [Registry.fields_object hinit hd] at hf
  cases hf

end Introspector

end MemberAccess
