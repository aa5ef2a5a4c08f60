import MemberAccess.Proofs.Binding.Recurrence
import MemberAccess.Proofs.Introspection.Exposure
import MemberAccess.Proofs.Registry.Reach

/-!
# What array classes show

An array class has no members of its own, and nothing above it but the root. So whatever a memory holds of it, it
finds no field on it, and no method that is not named like one of the root.

* `ClassMap.KnowsOnly`: a map that admits and has found methods of some names only.
* `Introspector.Bare`: a memory whose maps of array classes know the names of the root, and no others.
* `bare_touch`, `Bare.growsTo`: touches keep a memory bare, and so does the growth of the registry.
* `Bare.findMethod`, `Bare.findField`: nothing is found on an array class.
-/

namespace MemberAccess

variable {P : Policy} {r r' : Registry} {k : Introspector} {c : ClassId} {names : List String} {s : Signature}

/-! ## Maps -/

namespace ClassMap

/-- A map that admits methods of some names only, and has met every other name in vain. -/
structure KnowsOnly (names : List String) (m : ClassMap) : Prop where
  admitted : ∀ x ∈ m.admitted, x.name ∈ names
  index : ∀ {s l}, Assoc.get? s m.index = some l → s.name ∈ names ∨ l = .miss

theorem KnowsOnly.lookup {m : ClassMap} (h : m.KnowsOnly names) (r : Registry) (hs : s.name ∉ names) :
    m.lookup r s = .miss := by
  unfold ClassMap.lookup
  cases hget : Assoc.get? s m.index with
  | some l =>
    rcases h.index hget with hmem | rfl
    · exact absurd hmem hs
    · rfl
  | none =>
    -- there is nothing to rank
    have hnone : m.overloads s.name = [] := by
      unfold overloads
      rw [List.filter_eq_nil_iff]
      intro x hx hname
      have hx' := h.admitted x hx
      rw [of_decide_eq_true hname] at hx'
      exact hs hx'
    simp only [resolve, hnone]
    rfl

theorem KnowsOnly.remember {m : ClassMap} (h : m.KnowsOnly names) (r : Registry) (s : Signature) :
    (m.remember r s).KnowsOnly names where
  admitted := h.admitted
  index {s' l} hget := by
    unfold ClassMap.remember at hget
    simp only [Assoc.get?_put] at hget
    split at hget
    · rename_i hs
      subst hs
      by_cases hname : s.name ∈ names
      · exact .inl hname
      · rw [h.lookup r hname] at hget
        exact .inr (Option.some.inj hget).symm
    · exact h.index hget

end ClassMap

/-- Methods of some names make up a population of those names. -/
theorem Population.ofLineage_names {lineage : List ClassDef} (h : ∀ d ∈ lineage, ∀ x ∈ d.methods, x.name ∈ names) :
    (∀ x ∈ (ofLineage P lineage).admitted, x.name ∈ names) ∧
      ∀ e ∈ (ofLineage P lineage).index, e.1.name ∈ names := by
  apply ofLineage_induction (motive := fun w => (∀ x ∈ w.admitted, x.name ∈ names) ∧ ∀ e ∈ w.index, e.1.name ∈ names)
  · exact ⟨fun _ hx => (by cases hx), fun _ he => (by cases he)⟩
  · rintro w d m hd hm ⟨hadmitted, hindex⟩
    have hname : m.name ∈ names := h d hd m (mem_methods_of_mem_offers hm)
    have hentered : ∀ l : Lookup Method, ∀ e ∈ w.index ++ [(Signature.ofMethod m, l)], e.1.name ∈ names := by
      intro l e he
      rcases List.mem_append.1 he with he | he
      · exact hindex e he
      · rw [List.mem_singleton.1 he]
        exact hname
    unfold enter
    simp only
    split
    · exact ⟨hadmitted, hindex⟩
    · split
      · refine ⟨fun x hx => ?_, hentered _⟩
        rcases List.mem_append.1 hx with hx | hx
        · exact hadmitted x hx
        · rw [List.mem_singleton.1 hx]
          exact hname
      · exact ⟨hadmitted, hentered _⟩

/-- The names of the methods of the root class. -/
def Registry.rootNames : List String := ((initial.class? .object).map (·.methods.map (·.name))).getD []

theorem Registry.Made.array_fields (h : r.Made) {d : ClassDef} (hd : r.class? c = some d) (harray : d.isArray = true) :
    d.fields = [] := by
  rcases h c d hd with ⟨decl, rfl⟩ | ⟨name, t, rfl⟩
  · cases harray
  · rfl

/-- **The map of an array class**, when it is made, knows the names of the root. -/
theorem ClassMap.knowsOnly_made (hinit : Registry.initial.GrowsTo r) (hp : r.Proper) (hmade : r.Made) {m : ClassMap}
    (h : build r P c = some m) (harray : r.isArray c = true) (serial : Nat) :
    KnowsOnly Registry.rootNames { m with serial := serial } := by
  obtain ⟨d, hd, -, -, rfl⟩ := build_eq_some h
  obtain ⟨d', hd', hd'array⟩ := Registry.exists_array harray
  cases hd.symm.trans hd'
  have hnames : ∀ e ∈ r.lineage d, ∀ x ∈ e.methods, x.name ∈ Registry.rootNames := by
    intro e he x hx
    obtain ⟨b, hb, hwalks⟩ := (Registry.mem_lineage_iff hp hd).1 he
    rcases Registry.reaches_array hinit hmade hd hd'array hwalks.reaches with rfl | rfl
    · cases hd.symm.trans hb
      rw [(hmade.array hd hd'array).2] at hx
      cases hx
    · obtain ⟨root, hroot⟩ := Registry.exists_class (r := Registry.initial) (c := .object) (by decide)
      cases (hinit.class?_some hroot).symm.trans hb
      unfold Registry.rootNames
      rw [hroot]
      exact List.mem_map_of_mem hx
  obtain ⟨hadmitted, hindex⟩ := Population.ofLineage_names (P := P) hnames
  exact ⟨hadmitted, fun hget => .inl (hindex _ (Assoc.mem_of_get? hget))⟩

/-! ## Memories -/

namespace Introspector

/-- The maps of array classes know the names of the root, and no others. -/
def Bare (r : Registry) (k : Introspector) : Prop :=
  ∀ m ∈ k.held, r.isArray m.cls = true → m.KnowsOnly Registry.rootNames

theorem bare_new (P : Policy) (r : Registry) : Bare r { policy := P } := fun _ h => by cases h

section

variable (hinit : Registry.initial.GrowsTo r) (hp : r.Proper) (hmade : r.Made)

include hinit hp hmade

theorem Holds.knowsOnly (hk : k.Bare r) {m : ClassMap} (h : k.Holds r m) (harray : r.isArray m.cls = true) :
    m.KnowsOnly Registry.rootNames := by
  induction h with
  | before h => exact hk _ h harray
  | @made c m h serial =>
    obtain ⟨d, -, -, -, rfl⟩ := ClassMap.build_eq_some h
    exact ClassMap.knowsOnly_made hinit hp hmade h harray serial
  | remember _ s ih => exact (ih harray).remember r s

/-- **A touch leaves a memory bare.** -/
theorem bare_touch (hk : k.Bare r) (t : Touch) : (k.touch r t).Bare r := fun m hm =>
  (k.holds_touch r t m hm).knowsOnly hinit hp hmade hk

/-- **No method is found on an array class**, but those that are named like one of the root. -/
theorem Bare.findMethod (hk : k.Bare r) (horder : k.InOrder) (harray : r.isArray c = true)
    (hs : s.name ∉ Registry.rootNames) : (k.findMethod r c s).1 = .ok none := by
  rw [findMethod_answer]
  cases hm : (k.mapOf r c).1 with
  | none => rfl
  | some m =>
    have hanswer : k.mapOf r c = (some m, (k.mapOf r c).2) := Prod.ext hm rfl
    have hget := (get?_mapOf hanswer).1
    have hknows : m.KnowsOnly Registry.rootNames := by
      apply bare_touch hinit hp hmade hk (.map c) m (mem_held_of_get? hget)
      rw [(horder.mapOf r c).cls_eq hget]
      exact harray
    simp only [answerOf, hknows.lookup r hs]
    rfl

end

/-- **No field is found on an array class.** -/
theorem Grounded.findField_array (hk : k.Grounded r) (horder : k.InOrder) (hmade : r.Made) (harray : r.isArray c = true)
    (name : String) : (k.findField r c name).1 = none := by
  cases hf : (k.findField r c name).1 with
  | none => rfl
  | some f =>
    obtain ⟨d, hd, hmem⟩ := hk.findField horder hf
    obtain ⟨d', hd', hd'array⟩ := Registry.exists_array harray
    cases hd.symm.trans hd'
    rw [hmade.array_fields hd hd'array] at hmem
    cases hmem

/-- **A memory stays bare while the registry grows**: a class that has a map is there already. -/
theorem Bare.growsTo (hr : r.GrowsTo r') (hk : k.Bare r) (hgrounded : k.Grounded r) : k.Bare r' := by
  intro m hm harray
  obtain ⟨d, hd, -⟩ := (hgrounded m hm).own
  apply hk m hm
  rwa [Registry.isArray_growsTo hr (Registry.index_lt hd)] at harray

end Introspector

end MemberAccess
