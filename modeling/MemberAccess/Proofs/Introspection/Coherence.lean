import MemberAccess.Proofs.Introspection.Exposure
import MemberAccess.Proofs.Introspection.Order
import MemberAccess.Proofs.Registry.Distance

/-!
# Maps that stay true

Apart from the retirement of its class, a map is the same whenever it is made, and what it has
remembered is what it would find again.

* `ClassMap.plain`: the map of a class, alive or not, and `plain_growsTo`: it stays the same.
* `ClassMap.Extends`: a map knows what another one has found, and nothing else; `Extends.lookup_eq`: the
  two find the same.
* `ClassMap.Coherent`: a map that extends the plain one of its class. Lookups and the growth of the
  registry keep it so.
-/

namespace MemberAccess

variable {P : Policy} {r r' : Registry}

/-- A signature whose types are registered. -/
def Signature.KnownTo (r : Registry) (s : Signature) : Prop := ∀ t ∈ s.params, t.KnownTo r

theorem Signature.KnownTo.growsTo (hr : r.GrowsTo r') {s : Signature} (h : s.KnownTo r) : s.KnownTo r' :=
  fun t ht => (h t ht).growsTo hr

/-- The signature of a method is known when its parameters are. -/
theorem Signature.knownTo_ofMethod {m : Method} (h : ∀ t ∈ m.params, t.KnownTo r) : (ofMethod m).KnownTo r := by
  intro t ht
  obtain ⟨t', ht', rfl⟩ := List.mem_map.1 ht
  intro c hc
  rw [Ty.cls?_normalized] at hc
  exact h t' ht' c hc

namespace ClassMap

/-- The map of a class, whether it is alive or not. -/
def plain (r : Registry) (P : Policy) (c : ClassId) : Option ClassMap := build { r with retired := [] } P c

/-- The registry without its retirements. -/
theorem growsTo_of_alive (r : Registry) : ({ r with retired := [] } : Registry).GrowsTo r :=
  ⟨List.prefix_rfl, List.nil_suffix⟩

theorem build_eq (hp : r.Proper) (P : Policy) (c : ClassId) :
    build r P c = if r.isAlive c = true then plain r P c else none := by
  -- the two differ in what they ask of the class, and the lineage does not see retirements
  unfold plain build
  cases hd : r.class? c with
  | none =>
    have hd' : ({ r with retired := [] } : Registry).class? c = none := hd
    rw [hd']
    simp
  | some d =>
    have hd' : ({ r with retired := [] } : Registry).class? c = some d := hd
    have halive : ({ r with retired := [] } : Registry).isAlive c = true := rfl
    rw [hd', halive]
    simp only [Option.bind_eq_bind, Option.bind_some]
    rw [Registry.lineage_growsTo (Registry.proper_retired hp []) (growsTo_of_alive r) hd']
    cases r.isAlive c <;> simp [guard]

/-- **The map of a class is the same in every later registry.** -/
theorem plain_growsTo (hp : r.Proper) (hr : r.GrowsTo r') (P : Policy) {c : ClassId} (hc : c.index < r.size) :
    plain r' P c = plain r P c := by
  obtain ⟨d, hd⟩ := Registry.exists_class hc
  have hgrows : ({ r with retired := [] } : Registry).GrowsTo { r' with retired := [] } :=
    ⟨hr.classes, List.suffix_rfl⟩
  have hd' : ({ r with retired := [] } : Registry).class? c = some d := hd
  unfold plain build
  rw [hd', hgrows.class?_some hd']
  simp only [Option.bind_eq_bind, Option.bind_some]
  rw [Registry.lineage_growsTo (Registry.proper_retired hp []) hgrows hd']
  rfl

/-- The classes that a map's methods and signatures name are registered. -/
structure Closed (r : Registry) (m : ClassMap) : Prop where
  admitted : ∀ x ∈ m.admitted, ∀ t ∈ x.params, t.KnownTo r
  index : ∀ e ∈ m.index, e.1.KnownTo r

end ClassMap

/-- The classes that entered methods and signatures name are registered. -/
structure Population.Closed (r : Registry) (w : Population) : Prop where
  admitted : ∀ x ∈ w.admitted, ∀ t ∈ x.params, t.KnownTo r
  index : ∀ e ∈ w.index, e.1.KnownTo r

theorem Population.Closed.enter {w : Population} (hw : w.Closed r) {m : Method}
    (hm : ∀ t ∈ m.params, t.KnownTo r) (d : ClassDef) : (Population.enter P d w m).Closed r := by
  have hindex : ∀ l : Lookup Method, ∀ e ∈ w.index ++ [(Signature.ofMethod m, l)], e.1.KnownTo r := by
    intro l e he
    rcases List.mem_append.1 he with he | he
    · exact hw.index e he
    · rw [List.mem_singleton.1 he]
      exact Signature.knownTo_ofMethod hm
  -- whether the method is admitted or not, its signature is entered
  unfold Population.enter
  simp only
  split
  · exact hw
  · split
    · refine ⟨?_, hindex _⟩
      intro x hx
      rcases List.mem_append.1 hx with hx | hx
      · exact hw.admitted x hx
      · rw [List.mem_singleton.1 hx]
        exact hm
    · exact ⟨hw.admitted, hindex _⟩

theorem Population.closed_ofLineage (hc : r.Closed) {lineage : List ClassDef}
    (hl : ∀ d ∈ lineage, ∃ c, r.class? c = some d) : (ofLineage P lineage).Closed r := by
  apply ofLineage_induction
  · exact ⟨fun _ h => (by cases h), fun _ h => (by cases h)⟩
  · intro w d m hd hm hw
    obtain ⟨c, hd⟩ := hl d hd
    exact hw.enter (hc.methods hd m (mem_methods_of_mem_offers hm)) d

namespace ClassMap

theorem closed_plain (hp : r.Proper) (hc : r.Closed) {c : ClassId} {m : ClassMap} (h : plain r P c = some m) :
    m.Closed r ∧ m.cls = c := by
  obtain ⟨d, hd, -, -, rfl⟩ := build_eq_some h
  rw [← Registry.lineage_growsTo (Registry.proper_retired hp []) (growsTo_of_alive r) hd]
  have hw : (Population.ofLineage P (r.lineage d)).Closed r :=
    Population.closed_ofLineage hc (Registry.mem_lineage ⟨c, hd⟩)
  exact ⟨⟨hw.admitted, hw.index⟩, rfl⟩

/-- What a closed map finds for a signature that is known, it finds in every later registry. -/
theorem lookup_growsTo (hp : r.Proper) (hc : r.Closed) (hr : r.GrowsTo r') {m : ClassMap} (hm : m.Closed r)
    {s : Signature} (hs : s.KnownTo r) : m.lookup r' s = m.lookup r s := by
  unfold lookup
  cases Assoc.get? s m.index with
  | some known => rfl
  | none =>
    unfold resolve
    apply ofChoice_growsTo hp hc hr _ hs
    intro a ha
    exact hm.admitted a (List.mem_of_mem_filter ha)

/-- A map with the members of another one that knows what the other one has found, and nothing else. -/
structure Extends (r : Registry) (m b : ClassMap) : Prop where
  cls : m.cls = b.cls
  className : m.className = b.className
  admitted : m.admitted = b.admitted
  fields : m.fields = b.fields
  known : ∀ s l, Assoc.get? s m.index = some l → s.KnownTo r ∧ l = b.lookup r s
  covers : ∀ s, Assoc.get? s m.index = none → Assoc.get? s b.index = none

theorem Extends.refl {b : ClassMap} (hb : b.Closed r) : b.Extends r b where
  cls := rfl
  className := rfl
  admitted := rfl
  fields := rfl
  known s l h := ⟨hb.index _ (Assoc.mem_of_get? h), by unfold lookup; rw [h]⟩
  covers _ h := h

/-- **A map finds what the one that it extends finds.** -/
theorem Extends.lookup_eq {m b : ClassMap} (h : m.Extends r b) (s : Signature) : m.lookup r s = b.lookup r s := by
  cases hs : Assoc.get? s m.index with
  | some l =>
    -- a hit says what the other map would find
    rw [← (h.known s l hs).2]
    unfold lookup
    rw [hs]
  | none =>
    -- a signature that is new to the map is new to the other one, and both rank the same methods
    unfold lookup
    rw [hs, h.covers s hs]
    unfold resolve overloads
    rw [h.admitted]

/-- Two maps that show the same and find the same. -/
structure Agrees (r : Registry) (m n : ClassMap) : Prop where
  cls : m.cls = n.cls
  className : m.className = n.className
  admitted : m.admitted = n.admitted
  fields : m.fields = n.fields
  lookup : ∀ s, m.lookup r s = n.lookup r s

/-- Two maps that extend the same one agree. -/
theorem Extends.agrees {m n b : ClassMap} (hm : m.Extends r b) (hn : n.Extends r b) : m.Agrees r n where
  cls := hm.cls.trans hn.cls.symm
  className := hm.className.trans hn.className.symm
  admitted := hm.admitted.trans hn.admitted.symm
  fields := hm.fields.trans hn.fields.symm
  lookup s := (hm.lookup_eq s).trans (hn.lookup_eq s).symm

theorem Extends.remember {m b : ClassMap} (h : m.Extends r b) {s : Signature} (hs : s.KnownTo r) :
    (m.remember r s).Extends r b where
  cls := h.cls
  className := h.className
  admitted := h.admitted
  fields := h.fields
  known s' l hl := by
    unfold ClassMap.remember at hl
    simp only [Assoc.get?_put] at hl
    split at hl
    · -- the new entry was looked up in a map that finds the same
      rename_i heq
      subst heq
      cases hl
      exact ⟨hs, h.lookup_eq s⟩
    · exact h.known s' l hl
  covers s' hnone := by
    unfold ClassMap.remember at hnone
    simp only [Assoc.get?_put] at hnone
    split at hnone
    · cases hnone
    · exact h.covers s' hnone

theorem Extends.growsTo (hp : r.Proper) (hc : r.Closed) (hr : r.GrowsTo r') {m b : ClassMap} (hb : b.Closed r)
    (h : m.Extends r b) : m.Extends r' b where
  cls := h.cls
  className := h.className
  admitted := h.admitted
  fields := h.fields
  known s l hl := by
    obtain ⟨hs, rfl⟩ := h.known s l hl
    exact ⟨hs.growsTo hr, (lookup_growsTo hp hc hr hb hs).symm⟩
  covers := h.covers

/-- A map that extends the one that would be made for its class. -/
structure Coherent (P : Policy) (r : Registry) (m : ClassMap) : Prop where
  known : m.cls.index < r.size
  extends_plain : ∃ b, plain r P m.cls = some b ∧ m.Extends r b

theorem Coherent.remember {m : ClassMap} (h : m.Coherent P r) {s : Signature} (hs : s.KnownTo r) :
    (m.remember r s).Coherent P r := by
  obtain ⟨b, hb, hext⟩ := h.extends_plain
  exact ⟨h.known, b, hb, hext.remember hs⟩

theorem Coherent.growsTo (hp : r.Proper) (hc : r.Closed) (hr : r.GrowsTo r') {m : ClassMap}
    (h : m.Coherent P r) : m.Coherent P r' := by
  obtain ⟨b, hb, hext⟩ := h.extends_plain
  -- the map that it extends is still the one that would be made
  refine ⟨Nat.lt_of_lt_of_le h.known hr.size_le, b, ?_, hext.growsTo hp hc hr (closed_plain hp hc hb).1⟩
  rw [plain_growsTo hp hr P h.known]
  exact hb

/-- A map that has just been made, with whatever serial. -/
theorem coherent_made (hp : r.Proper) (hc : r.Closed) {c : ClassId} {m : ClassMap} (h : build r P c = some m)
    (serial : Nat) : Coherent P r { m with serial := serial } ∧ Extends r { m with serial := serial } m := by
  obtain ⟨d, hd, -, -, hm⟩ := build_eq_some h
  rw [build_eq hp] at h
  split at h
  · obtain ⟨hclosed, hcls⟩ := closed_plain hp hc h
    have hext : Extends r { m with serial := serial } m := by
      have := Extends.refl hclosed
      exact ⟨rfl, rfl, rfl, rfl, this.known, this.covers⟩
    refine ⟨⟨?_, m, ?_, hext⟩, hext⟩
    · simp only [hcls]
      exact Registry.index_lt hd
    · simp only [hcls]
      exact h
  · cases h

end ClassMap

end MemberAccess
