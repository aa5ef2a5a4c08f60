import MemberAccess.Introspection.ClassMap
import MemberAccess.Proofs.Overload.Choice
import MemberAccess.Proofs.Registry.Lineage

/-!
# Distances and costs that last

In a registry whose declarations and components name registered classes only, the distance between two
classes, what a call costs and how a member is described stay as they are when the registry grows.

* `Registry.Closed`, `closed_initial`, `closed_apply`: such registries, and the changes that keep them so.
* `distance_growsTo`, `callCost_growsTo`, `describe_growsTo`.
-/

namespace MemberAccess

variable {r r' : Registry}

/-- A type whose class is registered, if it has one. -/
def Ty.KnownTo (r : Registry) (t : Ty) : Prop := ∀ c ∈ t.cls?, c.index < r.size

instance (r : Registry) (t : Ty) : Decidable (t.KnownTo r) :=
  inferInstanceAs (Decidable (∀ c ∈ t.cls?, c.index < r.size))

theorem Ty.KnownTo.growsTo (hr : r.GrowsTo r') {t : Ty} (h : t.KnownTo r) : t.KnownTo r' :=
  fun c hc => Nat.lt_of_lt_of_le (h c hc) hr.size_le

namespace Registry

/-- A climb from nowhere. -/
theorem climb_nil (r : Registry) (target : ClassId) (n : Nat) : r.climb target n [] = none := by
  induction n with
  | zero => rfl
  | succ n ih =>
    unfold climb
    rw [if_neg (List.not_mem_nil)]
    have habove : r.above [] = [] := rfl
    rw [habove, ih]
    rfl

theorem supertypes_growsTo (hr : r.GrowsTo r') {c : ClassId} (hc : c.index < r.size) :
    r'.supertypes c = r.supertypes c := by
  unfold supertypes
  rw [hr.class?_eq hc]

theorem above_growsTo (hr : r.GrowsTo r') {layer : List ClassId} (h : ∀ c ∈ layer, c.index < r.size) :
    r'.above layer = r.above layer := by
  unfold above
  congr 1
  rw [List.flatMap_def, List.flatMap_def]
  congr 1
  apply List.map_congr_left
  intro c hc
  exact supertypes_growsTo hr (h c hc)

/-- What lies above a layer is registered, and lower than something in the layer. -/
theorem mem_above (hp : r.Proper) {layer : List ClassId} {s : ClassId} (hs : s ∈ r.above layer) :
    ∃ c ∈ layer, s.index < r.size ∧ s.height < c.height := by
  unfold above at hs
  obtain ⟨c, hc, hs⟩ := List.mem_flatMap.1 (List.mem_eraseDups.1 hs)
  refine ⟨c, hc, ?_⟩
  unfold supertypes at hs
  cases hd : r.class? c with
  | none => rw [hd] at hs; cases hs
  | some d => rw [hd] at hs; exact hp.above hd s hs

/-- A bound above the heights in a layer is enough for a climb. -/
theorem climb_growsTo (hp : r.Proper) (hr : r.GrowsTo r') (target : ClassId) : ∀ n n' (layer : List ClassId),
    (∀ c ∈ layer, c.index < r.size ∧ c.height < n ∧ c.height < n') →
    r'.climb target n' layer = r.climb target n layer := by
  intro n
  induction n with
  | zero =>
    intro n' layer h
    cases layer with
    | nil => rw [climb_nil, climb_nil]
    | cons c rest => exact absurd (h c List.mem_cons_self).2.1 (Nat.not_lt_zero _)
  | succ n ih =>
    intro n' layer h
    cases n' with
    | zero =>
      cases layer with
      | nil => rw [climb_nil, climb_nil]
      | cons c rest => exact absurd (h c List.mem_cons_self).2.2 (Nat.not_lt_zero _)
    | succ n' =>
      unfold climb
      split
      · rfl
      · -- the next layer is lower by one at least, so the smaller bounds are enough for it
        rw [above_growsTo hr fun c hc => (h c hc).1, ih]
        intro s hs
        obtain ⟨c, hc, hknown, hlt⟩ := mem_above hp hs
        have := h c hc
        omega

theorem steps_growsTo (hp : r.Proper) (hr : r.GrowsTo r') {source : ClassId} (hs : source.index < r.size)
    (target : ClassId) : r'.steps source target = r.steps source target := by
  unfold steps
  apply climb_growsTo hp hr
  intro c hc
  rw [List.mem_singleton.1 hc]
  have hheight := ClassId.height_lt hp.core hs
  have hsize := hr.size_le
  omega

/-- Every class that a declaration or a component names is registered, a component before its array. -/
structure Closed (r : Registry) : Prop where
  component : ∀ {c d a}, r.class? c = some d → d.component = some (.ofClass a) → a.index < c.index
  methods : ∀ {c d}, r.class? c = some d → ∀ m ∈ d.methods, ∀ t ∈ m.params, t.KnownTo r
  constructors : ∀ {c d}, r.class? c = some d → ∀ x ∈ d.constructors, ∀ t ∈ x.params, t.KnownTo r

/-- A depth of at least the position of an array class is enough for its components. -/
theorem distanceWithin_growsTo (hp : r.Proper) (hc : r.Closed) (hr : r.GrowsTo r') :
    ∀ n n' {source target : ClassId}, source.index < r.size → target.index < r.size → source.index ≤ n →
      source.index ≤ n' → r'.distanceWithin n' source target = r.distanceWithin n source target := by
  intro n
  induction n with
  | zero =>
    intro n' source target hs ht hn hn'
    obtain ⟨d, hd⟩ := exists_class hs
    unfold distanceWithin
    simp only [hr.class?_eq hs, hr.class?_eq ht, hd, steps_growsTo hp hr hs]
    split
    · rfl
    · split
      · rename_i hsd _
        cases hsd
        split
        · -- no component comes before the first class
          rename_i hcomp _
          exact absurd (hc.component hd hcomp) (by omega)
        · rfl
        · rfl
      · rfl
  | succ n ih =>
    intro n' source target hs ht hn hn'
    obtain ⟨d, hd⟩ := exists_class hs
    unfold distanceWithin
    simp only [hr.class?_eq hs, hr.class?_eq ht, hd, steps_growsTo hp hr hs]
    split
    · rfl
    · split
      · rename_i e hsd he
        cases hsd
        split
        · rename_i a b hcomp hcomp'
          have ha := hc.component hd hcomp
          have hb := hc.component he hcomp'
          -- the components come before their arrays, so both depths less one are enough
          cases n' with
          | zero => omega
          | succ n' => exact ih n' (by omega) (by omega) (by omega) (by omega)
        · rfl
        · rfl
      · rfl

/-- **The distance between two registered classes is the same in every later registry.** -/
theorem distance_growsTo (hp : r.Proper) (hc : r.Closed) (hr : r.GrowsTo r') {source target : ClassId}
    (hs : source.index < r.size) (ht : target.index < r.size) :
    r'.distance source target = r.distance source target := by
  have hsize := hr.size_le
  unfold distance
  exact distanceWithin_growsTo hp hc hr _ _ hs ht (by omega) (by omega)

/-- The distance to a class that is no array is a matter of declared supertypes alone. -/
theorem distance_eq_steps {source target : ClassId} {d e : ClassDef} (hs : r.class? source = some d)
    (ht : r.class? target = some e) (he : e.component = none) :
    r.distance source target = if source = target then some 0 else r.steps source target := by
  unfold distance distanceWithin
  split
  · rfl
  · simp only [hs, ht, he]
    cases d.component with
    | none => rfl
    | some t => cases t <;> rfl

/-- A depth that leads to a supertype leads there in every later registry, and so does a greater one. -/
theorem distanceWithin_some_growsTo (hp : r.Proper) (hr : r.GrowsTo r') : ∀ n n' {source target : ClassId} {k : Nat},
    n ≤ n' → r.distanceWithin n source target = some k → r'.distanceWithin n' source target = some k := by
  intro n
  induction n with
  | zero | succ n ih =>
    intro n' source target k hn h
    unfold distanceWithin at h ⊢
    split
    · rename_i heq
      rw [if_pos heq] at h
      exact h
    · rename_i hne
      rw [if_neg hne] at h
      cases hs : r.class? source with
      | none => simp [hs] at h
      | some d =>
        cases ht : r.class? target with
        | none => simp [hs, ht] at h
        | some e =>
          simp only [hs, ht, hr.class?_some hs, hr.class?_some ht, steps_growsTo hp hr (index_lt hs)] at h ⊢
          split at h
          · -- two arrays of references: their components, through one layer less
            cases n' <;> simp_all
          · cases h
          · exact h

/-- **A supertype stays one, at its distance.** Nothing is asked of what declarations name. -/
theorem distance_some_growsTo (hp : r.Proper) (hr : r.GrowsTo r') {source target : ClassId} {k : Nat}
    (h : r.distance source target = some k) : r'.distance source target = some k :=
  distanceWithin_some_growsTo hp hr _ _ (Nat.succ_le_succ hr.size_le) h

/-- The distance to a core class is that of the shortest climb. -/
theorem distance_core (hinit : initial.GrowsTo r) {source core : ClassId} (hs : source.index < r.size)
    (hcore : core.index < initial.size) :
    r.distance source core = if source = core then some 0 else r.steps source core := by
  obtain ⟨d, hd⟩ := exists_class hs
  obtain ⟨e, he⟩ := exists_class hcore
  have hcomponent : e.component = none := by
    obtain ⟨decl, rfl⟩ := class?_initial he
    rfl
  exact distance_eq_steps hd (hinit.class?_some he) hcomponent

/-- **Whether a class is below a core class** is the same in every later registry. -/
theorem isAssignable_growsTo (hp : r.Proper) (hinit : initial.GrowsTo r) (hr : r.GrowsTo r')
    {source core : ClassId} (hs : source.index < r.size) (hcore : core.index < initial.size) :
    r'.isAssignable source core = r.isAssignable source core := by
  unfold isAssignable
  rw [distance_core hinit hs hcore, distance_core (hinit.trans hr) (Nat.lt_of_lt_of_le hs hr.size_le) hcore,
    steps_growsTo hp hr hs]

/-! ## Closed registries -/

/-- A change that names registered classes only. -/
def Change.KnownTo (r : Registry) : Change → Prop
  | .register d => (∀ m ∈ d.methods, ∀ t ∈ m.params, t.KnownTo r) ∧
      ∀ x ∈ d.constructors, ∀ t ∈ x.params, t.KnownTo r
  | .arrayClass t => t.KnownTo r
  | .retire _ => True

theorem closed_initial : initial.Closed where
  component h hd := by obtain ⟨decl, rfl⟩ := class?_initial h; cases hd
  methods h := by
    have hall : ∀ d ∈ initial.classes, ∀ m ∈ d.methods, ∀ t ∈ m.params, t.KnownTo initial := by decide
    exact hall _ (mem_classes_iff.2 ⟨_, h⟩)
  constructors h := by
    have hall : ∀ d ∈ initial.classes, ∀ x ∈ d.constructors, ∀ t ∈ x.params, t.KnownTo initial := by decide
    exact hall _ (mem_classes_iff.2 ⟨_, h⟩)

/-- A closed registry stays closed with one more class, if that class names registered ones. -/
theorem closed_push (hc : r.Closed) {make : ClassId → ClassDef}
    (hcomp : ∀ a, (make r.next).component = some (.ofClass a) → a.index < r.size)
    (hm : ∀ m ∈ (make r.next).methods, ∀ t ∈ m.params, t.KnownTo r)
    (hx : ∀ x ∈ (make r.next).constructors, ∀ t ∈ x.params, t.KnownTo r) : (r.push make).Closed where
  component h hd := by
    rcases class?_push h with h | ⟨rfl, rfl⟩
    · exact hc.component h hd
    · exact hcomp _ hd
  methods h m hmem t ht := by
    rcases class?_push h with h | ⟨rfl, rfl⟩
    · exact (hc.methods h m hmem t ht).growsTo (growsTo_push r make)
    · exact (hm m hmem t ht).growsTo (growsTo_push r make)
  constructors h x hmem t ht := by
    rcases class?_push h with h | ⟨rfl, rfl⟩
    · exact (hc.constructors h x hmem t ht).growsTo (growsTo_push r make)
    · exact (hx x hmem t ht).growsTo (growsTo_push r make)

/-- **A change that names registered classes keeps a registry closed.** -/
theorem closed_apply (hc : r.Closed) {change : Change} (h : change.KnownTo r) : (r.apply change).Closed := by
  rcases apply_cases r change with e | ⟨d, rfl, -, -, -, e⟩ | ⟨t, rfl, -, e⟩ | ⟨c, -, -, -, e⟩ <;> rw [e]
  · exact hc
  · refine closed_push hc (fun a ha => by cases ha) ?_ ?_
    · intro m hm
      obtain ⟨i, hi, rfl⟩ := List.mem_mapIdx.1 hm
      exact h.1 _ (List.getElem_mem hi)
    · intro x hx
      obtain ⟨i, hi, rfl⟩ := List.mem_mapIdx.1 hx
      exact h.2 _ (List.getElem_mem hi)
  · -- the class of a component is registered, hence before the array class that comes in
    refine closed_push hc ?_ (fun m hm => by cases hm) (fun x hx => by cases hx)
    intro a ha
    cases ha
    exact h a rfl
  · exact ⟨hc.component, hc.methods, hc.constructors⟩

end Registry

/-! ## Costs and descriptions -/

/-- **What it costs to pass an argument is the same in every later registry.** -/
theorem conversionCost_growsTo (hp : r.Proper) (hc : r.Closed) (hr : r.GrowsTo r') {formal actual : Ty}
    (hf : formal.KnownTo r) (ha : actual.KnownTo r) :
    conversionCost r' formal actual = conversionCost r formal actual := by
  unfold conversionCost
  split
  · rfl
  · split
    · rfl
    · split
      · rfl
      · split
        · rfl
        · split
          · rename_i source target hs ht
            rw [Registry.distance_growsTo hp hc hr (ha source hs) (hf target ht)]
          · rfl

theorem callCost_growsTo (hp : r.Proper) (hc : r.Closed) (hr : r.GrowsTo r') (formals actuals : List Ty)
    (hf : ∀ t ∈ formals, t.KnownTo r) (ha : ∀ t ∈ actuals, t.KnownTo r) :
    callCost r' formals actuals = callCost r formals actuals := by
  have hcosts : conversionCosts r' formals actuals = conversionCosts r formals actuals := by
    induction formals generalizing actuals with
    | nil => cases actuals <;> rfl
    | cons formal formals ih =>
      cases actuals with
      | nil => rfl
      | cons actual actuals =>
        unfold conversionCosts
        rw [conversionCost_growsTo hp hc hr (hf formal List.mem_cons_self) (ha actual List.mem_cons_self)]
        rw [ih actuals (fun t ht => hf t (List.mem_cons_of_mem _ ht)) fun t ht => ha t (List.mem_cons_of_mem _ ht)]
  rw [callCost, hcosts, callCost]

/-- **What can be passed can be passed in every later registry**, at the same cost. -/
theorem conversionCost_some_growsTo (hp : r.Proper) (hr : r.GrowsTo r') {formal actual : Ty} {k : Nat}
    (h : conversionCost r formal actual = some k) : conversionCost r' formal actual = some k := by
  unfold conversionCost at h ⊢
  split
  · rename_i hnull
    rwa [if_pos hnull] at h
  · rename_i hnull
    rw [if_neg hnull] at h
    split
    · rename_i hsame
      rwa [if_pos hsame] at h
    · rename_i hsame
      rw [if_neg hsame] at h
      split at h
      · exact h
      · -- only the distance between two classes depends on the registry
        split at h
        · cases h
        · split at h
          · obtain ⟨distance, hdistance, rfl⟩ := Option.map_eq_some_iff.1 h
            simp_all [Registry.distance_some_growsTo hp hr hdistance]
          · cases h

theorem callCost_some_growsTo (hp : r.Proper) (hr : r.GrowsTo r') {formals actuals : List Ty} {k : Nat}
    (h : callCost r formals actuals = some k) : callCost r' formals actuals = some k := by
  obtain ⟨costs, hcosts, rfl⟩ := Option.map_eq_some_iff.1 h
  suffices hsame : conversionCosts r' formals actuals = some costs from Option.map_eq_some_iff.2 ⟨costs, hsame, rfl⟩
  clear h
  induction formals generalizing actuals costs with
  | nil => cases actuals <;> exact hcosts
  | cons formal formals ih =>
    cases actuals with
    | nil => exact hcosts
    | cons actual actuals =>
      unfold conversionCosts at hcosts ⊢
      obtain ⟨first, hfirst, hcosts⟩ := Option.bind_eq_some_iff.1 hcosts
      obtain ⟨rest, hrest, hcosts⟩ := Option.bind_eq_some_iff.1 hcosts
      rw [conversionCost_some_growsTo hp hr hfirst, ih rest hrest]
      exact hcosts

theorem Registry.typeName_growsTo (hr : r.GrowsTo r') {t : Ty} (ht : t.KnownTo r) :
    r'.typeName t = r.typeName t := by
  cases t with
  | ofClass c =>
    unfold typeName
    simp only [hr.class?_eq (ht c rfl)]
  | primitive | null => rfl

theorem Registry.describe_growsTo (hr : r.GrowsTo r') (name : String) {params : List Ty}
    (h : ∀ t ∈ params, t.KnownTo r) : r'.describe name params = r.describe name params := by
  unfold describe
  rw [List.map_congr_left fun t ht => typeName_growsTo hr (h t ht)]

/-- **A choice among overloads, ready to be kept, is the same in every later registry.** -/
theorem ofChoice_growsTo {α : Type} (hp : r.Proper) (hc : r.Closed) (hr : r.GrowsTo r')
    {name : α → String} {params : α → List Ty} {actuals : List Ty} {candidates : List α}
    (h : ∀ a ∈ candidates, ∀ t ∈ params a, t.KnownTo r) (ha : ∀ t ∈ actuals, t.KnownTo r) :
    Lookup.ofChoice (fun a => r'.describe (name a) (params a)) (choose r' params actuals candidates) =
      Lookup.ofChoice (fun a => r.describe (name a) (params a)) (choose r params actuals candidates) := by
  -- the costs are the same, so the choice is; it remains to describe the tied candidates
  rw [choose_congr (r := r) fun a hmem => callCost_growsTo hp hc hr _ _ (h a hmem) ha]
  cases hchoice : choose r params actuals candidates with
  | none => rfl
  | one a => rfl
  | tie tied =>
    unfold Lookup.ofChoice
    simp only [Lookup.ambiguous.injEq]
    apply List.map_congr_left
    intro a hmem
    exact Registry.describe_growsTo hr (name a) (h a (mem_of_choose_tie hchoice a hmem))

end MemberAccess
