import MemberAccess.Proofs.Introspection.Query
import MemberAccess.Proofs.Overload.Choice
import MemberAccess.Proofs.Registry.Lineage

/-!
# What a policy exposes

A policy **exposes** a member when the member is public, its class is public, and the policy allows it
for its class. A map that is made for a class under a policy holds exposed members only.

* `Policy.ExposesMethod`, `Policy.ExposesField`, `Policy.ExposesConstructor`.
* `ClassMap.Sound`: a map of exposed members, and `ClassMap.sound_build`: one that is made is sound.
* `Population.ofLineage_induction`: what every entered method keeps holds of the methods of a lineage.
-/

namespace MemberAccess

variable {P : Policy} {r r' : Registry}

namespace Policy

/-- A public method of a public class that the policy allows. -/
def ExposesMethod (P : Policy) (r : Registry) (m : Method) : Prop :=
  ∃ d, r.class? m.declaring = some d ∧ m ∈ d.methods ∧ d.isPublic = true ∧ m.isPublic = true ∧
    P.allowsMethod d m = true

/-- A public field of a public class that the policy allows. -/
def ExposesField (P : Policy) (r : Registry) (f : Field) : Prop :=
  ∃ d, r.class? f.declaring = some d ∧ f ∈ d.fields ∧ d.isPublic = true ∧ f.isPublic = true ∧
    P.allowsField d f = true

/-- A public constructor of a public class that the policy allows. -/
def ExposesConstructor (P : Policy) (r : Registry) (c : Constructor) : Prop :=
  ∃ d, r.class? c.declaring = some d ∧ c ∈ d.constructors ∧ d.isPublic = true ∧ c.isPublic = true ∧
    P.allowsConstructor d = true

/-- A text is the description of an exposed method or constructor, as it was written at some time. -/
def Describes (P : Policy) (r : Registry) (text : String) : Prop :=
  ∃ earlier : Registry, earlier.Proper ∧ earlier.GrowsTo r ∧
    ((∃ m, P.ExposesMethod r m ∧ text = earlier.describe m.name m.params) ∨
      ∃ c, P.ExposesConstructor r c ∧ text = earlier.describe "<init>" c.params)

theorem ExposesMethod.growsTo {m : Method} (hr : r.GrowsTo r') (h : P.ExposesMethod r m) :
    P.ExposesMethod r' m := by
  obtain ⟨d, hd, h⟩ := h
  exact ⟨d, hr.class?_some hd, h⟩

theorem ExposesField.growsTo {f : Field} (hr : r.GrowsTo r') (h : P.ExposesField r f) :
    P.ExposesField r' f := by
  obtain ⟨d, hd, h⟩ := h
  exact ⟨d, hr.class?_some hd, h⟩

theorem ExposesConstructor.growsTo {c : Constructor} (hr : r.GrowsTo r') (h : P.ExposesConstructor r c) :
    P.ExposesConstructor r' c := by
  obtain ⟨d, hd, h⟩ := h
  exact ⟨d, hr.class?_some hd, h⟩

theorem Describes.growsTo {text : String} (hr : r.GrowsTo r') (h : P.Describes r text) :
    P.Describes r' text := by
  obtain ⟨earlier, hp, he, ⟨m, hm, ht⟩ | ⟨c, hc, ht⟩⟩ := h
  · exact ⟨earlier, hp, he.trans hr, Or.inl ⟨m, hm.growsTo hr, ht⟩⟩
  · exact ⟨earlier, hp, he.trans hr, Or.inr ⟨c, hc.growsTo hr, ht⟩⟩

end Policy

/-- A remembered outcome is about members that are good and names only what texts may say. -/
def Lookup.Within {α : Type} (good : α → Prop) (text : String → Prop) : Lookup α → Prop
  | .found a => good a
  | .miss => True
  | .ambiguous candidates => ∀ t ∈ candidates, text t

theorem Lookup.Within.imp {α : Type} {good good' : α → Prop} {text text' : String → Prop} {l : Lookup α}
    (hg : ∀ a, good a → good' a) (ht : ∀ t, text t → text' t) (h : l.Within good text) :
    l.Within good' text' := by
  cases l with
  | found a => exact hg a h
  | miss => trivial
  | ambiguous candidates => exact fun t hmem => ht t (h t hmem)

/-- The outcome of a choice among good candidates is about good ones. -/
theorem Lookup.within_ofChoice {α : Type} {good : α → Prop} {text : String → Prop} {describe : α → String}
    {params : α → List Ty} {actuals : List Ty} {candidates : List α} (hgood : ∀ a ∈ candidates, good a)
    (htext : ∀ a, good a → text (describe a)) :
    (Lookup.ofChoice describe (choose r params actuals candidates)).Within good text := by
  cases hc : choose r params actuals candidates with
  | none => trivial
  | one a => exact hgood a (of_choose_one hc).1
  | tie tied =>
    intro t ht
    obtain ⟨a, ha, rfl⟩ := List.mem_map.1 ht
    exact htext a (hgood a (mem_of_choose_tie hc a ha))

namespace ClassMap

/-- Everything in the map is exposed. -/
structure Sound (P : Policy) (r : Registry) (m : ClassMap) : Prop where
  admitted : ∀ x ∈ m.admitted, P.ExposesMethod r x
  fields : ∀ f ∈ m.fields, P.ExposesField r f
  index : ∀ e ∈ m.index, e.2.Within (P.ExposesMethod r) (P.Describes r)

theorem Sound.growsTo {m : ClassMap} (hr : r.GrowsTo r') (h : m.Sound P r) : m.Sound P r' where
  admitted x hx := (h.admitted x hx).growsTo hr
  fields f hf := (h.fields f hf).growsTo hr
  index e he := (h.index e he).imp (fun _ => .growsTo hr) (fun _ => .growsTo hr)

/-- A sound map finds only what is exposed. -/
theorem Sound.lookup (hr : r.Proper) {m : ClassMap} (h : m.Sound P r) (s : Signature) :
    (m.lookup r s).Within (P.ExposesMethod r) (P.Describes r) := by
  unfold ClassMap.lookup
  cases hget : Assoc.get? s m.index with
  | some known => exact h.index _ (Assoc.mem_of_get? hget)
  | none =>
    apply Lookup.within_ofChoice
    · intro x hx
      exact h.admitted x (List.mem_of_mem_filter hx)
    · intro x hx
      exact ⟨r, hr, .refl r, Or.inl ⟨x, hx, rfl⟩⟩

theorem Sound.remember (hr : r.Proper) {m : ClassMap} (h : m.Sound P r) (s : Signature) :
    (m.remember r s).Sound P r where
  admitted := h.admitted
  fields := h.fields
  index e he := by
    rcases Assoc.mem_put he with rfl | he
    · exact h.lookup hr s
    · exact h.index e he

end ClassMap

/-! ## Populations -/

/-- Everything entered so far is exposed. -/
structure Population.Sound (P : Policy) (r : Registry) (w : Population) : Prop where
  admitted : ∀ x ∈ w.admitted, P.ExposesMethod r x
  index : ∀ e ∈ w.index, e.2.Within (P.ExposesMethod r) (P.Describes r)

namespace Population

/-- A class offers its public methods, when it is public itself. -/
theorem Sound.enter {w : Population} (hw : w.Sound P r) {d : ClassDef} {m : Method}
    (hd : r.class? m.declaring = some d) (hm : m ∈ P.offers d) : (enter P d w m).Sound P r := by
  unfold Policy.offers at hm
  split at hm
  · -- the class is public, and so is the method; it is entered if its signature is new
    rename_i hpub
    rw [Bool.and_eq_true] at hpub
    obtain ⟨hmem, hmpub⟩ := List.mem_filter.1 hm
    unfold Population.enter
    simp only
    split
    · exact hw
    · split
      · rename_i hallow
        have hexp : P.ExposesMethod r m := ⟨d, hd, hmem, hpub.1, hmpub, hallow⟩
        refine ⟨?_, ?_⟩
        · intro x hx
          rcases List.mem_append.1 hx with hx | hx
          · exact hw.admitted x hx
          · rw [List.mem_singleton.1 hx]; exact hexp
        · intro e he
          rcases List.mem_append.1 he with he | he
          · exact hw.index e he
          · rw [List.mem_singleton.1 he]; exact hexp
      · -- a denied method is entered as a miss
        refine ⟨hw.admitted, ?_⟩
        intro e he
        rcases List.mem_append.1 he with he | he
        · exact hw.index e he
        · rw [List.mem_singleton.1 he]; trivial
  · cases hm

/-- What every entered method of a lineage keeps holds of the population. -/
theorem ofLineage_induction {motive : Population → Prop} {lineage : List ClassDef} (empty : motive {})
    (enter : ∀ w d m, d ∈ lineage → m ∈ P.offers d → motive w → motive (enter P d w m)) :
    motive (ofLineage P lineage) := by
  unfold ofLineage
  -- from any population on, along any part of the lineage
  suffices ∀ (l : List ClassDef) (w : Population), (∀ d ∈ l, d ∈ lineage) → motive w →
      motive (l.foldl (fun w d => (P.offers d).foldl (Population.enter P d) w) w) from
    this lineage {} (fun _ h => h) empty
  intro l
  induction l with
  | nil => intro w _ hw; exact hw
  | cons d rest ih =>
    intro w hl hw
    rw [List.foldl_cons]
    apply ih _ fun x hx => hl x (List.mem_cons_of_mem _ hx)
    -- the methods of one class, one after the other
    suffices ∀ (ms : List Method) (w : Population), (∀ m ∈ ms, m ∈ P.offers d) → motive w →
        motive (ms.foldl (Population.enter P d) w) from this _ w (fun _ h => h) hw
    intro ms
    induction ms with
    | nil => intro w _ hw; exact hw
    | cons m ms ihm =>
      intro w hms hw
      rw [List.foldl_cons]
      exact ihm _ (fun x hx => hms x (List.mem_cons_of_mem _ hx))
        (enter w d m (hl d List.mem_cons_self) (hms m List.mem_cons_self) hw)

/-- What a class offers are methods of its own. -/
theorem mem_methods_of_mem_offers {d : ClassDef} {m : Method} (h : m ∈ P.offers d) : m ∈ d.methods := by
  unfold Policy.offers at h
  split at h
  · exact List.mem_of_mem_filter h
  · cases h

/-- **The population along a lineage is exposed.** -/
theorem sound_ofLineage (hr : r.Proper) {lineage : List ClassDef}
    (hl : ∀ d ∈ lineage, ∃ c, r.class? c = some d) : (ofLineage P lineage).Sound P r := by
  apply ofLineage_induction
  · exact ⟨fun _ h => (by cases h), fun _ h => (by cases h)⟩
  · intro w d m hd hm hw
    obtain ⟨c, hc⟩ := hl d hd
    refine hw.enter ?_ hm
    rw [(hr.owns hc).methods m (mem_methods_of_mem_offers hm), hr.id hc, hc]

end Population

theorem Policy.exposesField_of_mem (hr : r.Proper) {c : ClassId} {d : ClassDef} (hd : r.class? c = some d)
    {f : Field} (hf : f ∈ P.shownFields d) : P.ExposesField r f := by
  unfold Policy.shownFields at hf
  split at hf
  · rename_i hpub
    obtain ⟨hmem, hshown⟩ := List.mem_filter.1 hf
    rw [Bool.and_eq_true] at hshown
    refine ⟨d, ?_, hmem, hpub, hshown.1, hshown.2⟩
    rw [(hr.owns hd).fields f hmem, hr.id hd, hd]
  · cases hf

/-- **A map that is made is sound.** -/
theorem ClassMap.sound_build (hr : r.Proper) {c : ClassId} {m : ClassMap}
    (h : ClassMap.build r P c = some m) : m.Sound P r := by
  obtain ⟨d, hd, -, -, rfl⟩ := build_eq_some h
  have hpop : (Population.ofLineage P (r.lineage d)).Sound P r :=
    Population.sound_ofLineage hr (Registry.mem_lineage ⟨c, hd⟩)
  exact ⟨hpop.admitted, fun f hf => Policy.exposesField_of_mem hr hd hf, hpop.index⟩

end MemberAccess
