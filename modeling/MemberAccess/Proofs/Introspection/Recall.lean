import MemberAccess.Proofs.Introspection.Order
import MemberAccess.Proofs.Registry.Growth

/-!
# What memories recall

A memory only learns: apart from purges, a later memory holds what an earlier one held about every class
that is alive. So a question that has been answered is answered the same way again.

* `ClassMap.Recalls`, `Introspector.Recalls`: this, for the map of one class and for a memory.
* `recalls_touch`: touches, purges apart, leave a memory that recalls the one before.
* `findMethod_again`, `findField_again`: answers are given again.
-/

namespace MemberAccess

variable {r r' : Registry} {k k' k'' : Introspector} {c : ClassId}

namespace ClassMap

/-- What a map knows it looks up. -/
theorem lookup_of_known {m : ClassMap} {s : Signature} {known : Lookup Method}
    (h : Assoc.get? s m.index = some known) : m.lookup r s = known := by
  unfold lookup
  rw [h]

/-- A map goes on knowing what it knows. -/
theorem get?_remember {m : ClassMap} {s s' : Signature} {known : Lookup Method}
    (h : Assoc.get? s m.index = some known) : Assoc.get? s (m.remember r s').index = some known := by
  unfold remember
  simp only [Assoc.get?_put]
  split
  · rename_i hs
    rw [hs, lookup_of_known h]
  · exact h

/-- A map knows what it has looked up. -/
theorem get?_remember_self (m : ClassMap) (r : Registry) (s : Signature) :
    Assoc.get? s (m.remember r s).index = some (m.lookup r s) := by
  unfold remember
  simp only [Assoc.get?_put, if_true]

/-- A later state of the map of a class: it shows the same fields and knows what it knew. -/
structure Recalls (m' m : ClassMap) : Prop where
  cls : m'.cls = m.cls
  fields : m'.fields = m.fields
  known : ∀ {s l}, Assoc.get? s m.index = some l → Assoc.get? s m'.index = some l

theorem Recalls.refl (m : ClassMap) : m.Recalls m := ⟨rfl, rfl, fun h => h⟩

theorem Recalls.trans {m m' m'' : ClassMap} (h : m''.Recalls m') (h' : m'.Recalls m) : m''.Recalls m :=
  ⟨h.cls.trans h'.cls, h.fields.trans h'.fields, fun hs => h.known (h'.known hs)⟩

theorem recalls_remember (m : ClassMap) (r : Registry) (s : Signature) : (m.remember r s).Recalls m :=
  ⟨rfl, rfl, get?_remember⟩

end ClassMap

namespace Introspector

/-- A later state of a memory: about every living class it holds what it held, or more. -/
structure Recalls (r : Registry) (k' k : Introspector) : Prop where
  kept : ∀ {c kept}, r.isAlive c = true → Assoc.get? c k.maps = some kept →
    ∃ kept', Assoc.get? c k'.maps = some kept' ∧ Option.Rel ClassMap.Recalls kept' kept

theorem Recalls.of_get? (h : ∀ c kept, r.isAlive c = true → Assoc.get? c k.maps = some kept →
    Assoc.get? c k'.maps = some kept) : k'.Recalls r k where
  kept {c kept} hc hget := by
    refine ⟨kept, h c kept hc hget, ?_⟩
    cases kept with
    | none => exact .none
    | some m => exact .some (.refl m)

theorem Recalls.refl (r : Registry) (k : Introspector) : k.Recalls r k := .of_get? fun _ _ _ h => h

theorem Recalls.trans (h : k''.Recalls r k') (h' : k'.Recalls r k) : k''.Recalls r k where
  kept hc hget := by
    obtain ⟨kept', hget', hrel'⟩ := h'.kept hc hget
    obtain ⟨kept'', hget'', hrel''⟩ := h.kept hc hget'
    refine ⟨kept'', hget'', ?_⟩
    cases hrel' with
    | none => exact hrel''
    | some hm' => cases hrel'' with
      | some hm'' => exact .some (hm''.trans hm')

/-- Recalling is about living classes, and in a steady registry the same ones are alive. -/
theorem Recalls.steady (hr : r.SteadyTo r') (h : k'.Recalls r' k) : k'.Recalls r k :=
  ⟨fun hc hget => h.kept (by rw [hr.isAlive_eq]; exact hc) hget⟩

/-! ## Touches -/

theorem recalls_mapOf (hk : k.InOrder) (r : Registry) (c : ClassId) : (k.mapOf r c).2.Recalls r k := by
  apply Recalls.of_get?
  intro c' kept hc' hget
  rcases mapOf_cases k r c with ⟨_, -, -, e⟩ | ⟨m, hm, hdead, e⟩ | ⟨hnone, e⟩ <;> rw [e]
  · exact hget
  · -- only the map of a class that is dead is dropped
    have hne : c ≠ c' := by
      rintro rfl
      rw [hk.cls_eq hm, hc'] at hdead
      cases hdead
    unfold Introspector.purge
    simp only [Assoc.get?_erase, hne, if_false]
    exact hget
  · -- only a class without a map gets one
    have hne : c ≠ c' := by
      rintro rfl
      rw [hnone] at hget
      cases hget
    simp only [Assoc.get?_put, hne, if_false]
    exact hget

theorem recalls_findMethod (hk : k.InOrder) (r : Registry) (c : ClassId) (s : Signature) :
    (k.findMethod r c s).2.Recalls r k := by
  have hmap := recalls_mapOf hk r c
  rcases findMethod_cases k r c s with ⟨-, e⟩ | ⟨m, k', hm, e⟩ <;> rw [e]
  · exact hmap
  · rw [hm] at hmap
    refine Recalls.trans ⟨?_⟩ hmap
    intro c' kept hc' hget
    simp only [Assoc.get?_put]
    split
    · -- the map of the class has looked the signature up
      rename_i heq
      subst heq
      rw [(get?_mapOf hm).1] at hget
      cases hget
      exact ⟨_, rfl, .some (m.recalls_remember r s)⟩
    · exact (Recalls.refl r k').kept hc' hget

theorem recalls_findInHeld (hk : k.InOrder) (r : Registry) {m : ClassMap} (hm : m ∈ k.held) (s : Signature) :
    (k.findInHeld r m s).2.Recalls r k where
  kept {c kept} _ hget := by
    have hmaps := Assoc.get?_map (Option.map fun n : ClassMap => if n.serial = m.serial then m.remember r s else n)
      c k.maps
    rw [hget] at hmaps
    refine ⟨_, hmaps, ?_⟩
    cases kept with
    | none => exact .none
    | some n =>
      refine .some ?_
      simp only
      split
      · -- of the maps that are held, only the one with this serial is renewed
        rename_i hs
        rw [hk.eq_of_serial (mem_held_of_get? hget) hm hs]
        exact m.recalls_remember r s
      · exact .refl n

/-- **Whatever touches a memory, purges apart, leaves one that recalls it.** -/
theorem recalls_touch (hk : k.InOrder) (r : Registry) {t : Touch} (ht : ∀ c, t ≠ .purge c) :
    (k.touch r t).Recalls r k := by
  cases t with
  | map c => exact recalls_mapOf hk r c
  | method c s => exact recalls_findMethod hk r c s
  | constructor name args =>
    simp only [touch]
    rcases findConstructor_cases k r name args with e | ⟨d, -, -, e⟩ <;> rw [e]
    · exact .refl r k
    · exact .of_get? fun _ _ _ h => h
  | purge c => exact absurd rfl (ht c)
  | held serial s =>
    simp only [touch]
    split
    · rename_i m hm
      exact recalls_findInHeld hk r (mem_held_of_held? hm).1 s
    · exact .refl r k

/-! ## Answers that are given again -/

/-- What is kept about a living class is the answer. -/
theorem mapOf_of_kept (hk : k.InOrder) (hc : r.isAlive c = true) {kept : Option ClassMap}
    (hget : Assoc.get? c k.maps = some kept) : k.mapOf r c = (kept, k) := by
  rcases mapOf_cases k r c with ⟨kept', hget', -, e⟩ | ⟨m, hget', hdead, -⟩ | ⟨hget', -⟩ <;>
    rw [hget] at hget' <;> cases hget'
  · exact e
  · rw [hk.cls_eq hget, hc] at hdead
    cases hdead

/-- The answer about a living class is kept. -/
theorem get?_mapOf_alive (hk : k.InOrder) (hc : r.isAlive c = true) :
    Assoc.get? c (k.mapOf r c).2.maps = some (k.mapOf r c).1 := by
  rcases mapOf_cases k r c with ⟨kept, hget, -, e⟩ | ⟨m, hget, hdead, -⟩ | ⟨-, e⟩
  · rw [e]
    exact hget
  · rw [hk.cls_eq hget, hc] at hdead
    cases hdead
  · rw [e]
    simp only [Assoc.get?_put, if_true]

/-- A class that is dead has no map. -/
theorem mapOf_dead (hk : k.InOrder) (hc : r.isAlive c = false) : (k.mapOf r c).1 = none := by
  cases h : (k.mapOf r c).1 with
  | none => rfl
  | some m =>
    have hanswer : k.mapOf r c = (some m, (k.mapOf r c).2) := Prod.ext h rfl
    obtain ⟨-, ⟨hget, halive⟩ | ⟨m', hm', -⟩⟩ := get?_mapOf hanswer
    · rw [hk.cls_eq hget, hc] at halive
      cases halive
    · obtain ⟨d, -, halive, -⟩ := ClassMap.build_eq_some hm'
      rw [hc] at halive
      cases halive

/-- **A method that has been found is found again**, and one that has not been found is not found again. -/
theorem findMethod_again (hr : r'.isAlive c = r.isAlive c) (hk : k.InOrder) (hk' : k'.InOrder) {s : Signature}
    {found : Option Method} (h : (k.findMethod r c s).1 = .ok found)
    (hrecalls : k'.Recalls r (k.findMethod r c s).2) : (k'.findMethod r' c s).1 = .ok found := by
  cases hc : r.isAlive c with
  | false =>
    -- nothing is ever found on a dead class
    rw [findMethod_answer, mapOf_dead hk hc] at h
    rw [findMethod_answer, mapOf_dead hk' (hr.trans hc)]
    exact h
  | true =>
    have hkept := get?_mapOf_alive hk hc
    rcases findMethod_cases k r c s with ⟨hnone, e⟩ | ⟨m, k₁, hmap, e⟩ <;> rw [e] at h hrecalls
    · rw [hnone] at hkept
      obtain ⟨kept', hget', hrel⟩ := hrecalls.kept hc hkept
      cases hrel
      rw [findMethod_answer, mapOf_of_kept hk' (hr.trans hc) hget']
      exact h
    · have hremembered : Assoc.get? c (Assoc.put c (some (m.remember r s)) k₁.maps) = some (some (m.remember r s)) := by
        rw [Assoc.get?_put, if_pos rfl]
      obtain ⟨kept', hget', hrel⟩ := hrecalls.kept hc hremembered
      cases hrel with
      | @some m' _ hm' =>
        have hlookup : m'.lookup r' s = m.lookup r s :=
          ClassMap.lookup_of_known (hm'.known (m.get?_remember_self r s))
        rw [findMethod_answer, mapOf_of_kept hk' (hr.trans hc) hget']
        simp only [answerOf, hlookup]
        -- an answer that is no tie says nothing about the registry
        cases hl : m.lookup r s <;> rw [hl] at h
        case ambiguous => cases h
        all_goals exact h

/-- **A field that has been found is found again**, and one that has not been found is not found again. -/
theorem findField_again (hr : r'.isAlive c = r.isAlive c) (hk : k.InOrder) (hk' : k'.InOrder) {name : String}
    (hrecalls : k'.Recalls r (k.findField r c name).2) : (k'.findField r' c name).1 = (k.findField r c name).1 := by
  have hanswer : ∀ (k : Introspector) (r : Registry),
      (k.findField r c name).1 = (k.mapOf r c).1.bind (·.field? name) := fun _ _ => rfl
  rw [hanswer, hanswer]
  cases hc : r.isAlive c with
  | false => rw [mapOf_dead hk hc, mapOf_dead hk' (hr.trans hc)]
  | true =>
    obtain ⟨kept', hget', hrel⟩ := hrecalls.kept hc (get?_mapOf_alive hk hc)
    rw [mapOf_of_kept hk' (hr.trans hc) hget']
    generalize (k.mapOf r c).1 = kept at hrel
    cases hrel with
    | none => rfl
    | some hm => simp only [Option.bind_some, ClassMap.field?, hm.fields]

end Introspector

end MemberAccess
