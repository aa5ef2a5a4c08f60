import MemberAccess.Proofs.Binding.Origin
import MemberAccess.Proofs.Introspection.Grounding
import MemberAccess.Proofs.Introspection.Recall

/-!
# Searches that recur

A search that found a binding finds it again: in every later memory that recalls what the first search left
behind, and in every later registry in which no more classes have been retired. One family reads the registry
beyond its memory: a field is a way to write a value when the value can be converted, and conversions are only
ever added. So it may find a field that it did not find before, but it comes last in every order.

* `Search.Recurs`: a search that gives the answers of an earlier one, with its rules.
* `Resolver.recurs_firstReader`, `Resolver.recurs_firstWriter`: searches for readers and writers recur.
* `Discovery.recurs_search`: the same for what an engine is asked to find with a style.
-/

namespace MemberAccess

variable {α β : Type} {r r' : Registry} {c : ClassId}

namespace Search

/-- Two searches that only learn, the second one giving the answers of the first that satisfy `p` whenever it
is made in a memory that recalls what the first one left behind. -/
structure Recurs (r : Registry) (S S' : Search α) (p : α → Prop) : Prop where
  learns : ∀ k, k.InOrder → (S k).2.InOrder ∧ (S k).2.Recalls r k
  learns' : ∀ k, k.InOrder → (S' k).2.InOrder ∧ (S' k).2.Recalls r k
  again : ∀ {k k' a}, k.InOrder → k'.InOrder → k'.Recalls r (S k).2 → (S k).1 = .ok a → p a → (S' k').1 = .ok a

/-- Whatever it answers, a search answers it again. -/
abbrev Recur (r : Registry) (S S' : Search α) : Prop := Recurs r S S' fun _ => True

variable {S S' : Search α} {p q : α → Prop}

theorem recurs_pure {a a' : α} (h : p a → a' = a) : Recurs r (pure a) (pure a') p where
  learns k hk := ⟨hk, .refl r k⟩
  learns' k hk := ⟨hk, .refl r k⟩
  again _ _ _ ha hp := by
    cases ha
    exact congrArg _ (h hp)

theorem Recurs.imp (h : Recurs r S S' p) (hqp : ∀ a, q a → p a) : Recurs r S S' q :=
  ⟨h.learns, h.learns', fun hk hk' hrecalls ha hq => h.again hk hk' hrecalls ha (hqp _ hq)⟩

/-- What a search and its continuation leave behind. -/
theorem learns_bind {S : Search α} {f : α → Search β}
    (hS : ∀ k, k.InOrder → (S k).2.InOrder ∧ (S k).2.Recalls r k)
    (hf : ∀ a k, k.InOrder → (f a k).2.InOrder ∧ (f a k).2.Recalls r k) (k : Introspector) (hk : k.InOrder) :
    ((S >>= f) k).2.InOrder ∧ ((S >>= f) k).2.Recalls r k := by
  obtain ⟨hk', hrecalls⟩ := hS k hk
  rw [bind_apply]
  rcases hs : S k with ⟨e | a, k'⟩ <;> rw [hs] at hk' hrecalls
  · exact ⟨hk', hrecalls⟩
  · obtain ⟨hk'', hrecalls'⟩ := hf a k' hk'
    exact ⟨hk'', hrecalls'.trans hrecalls⟩

theorem Recurs.bind {f f' : α → Search β} {q : β → Prop} (h : Recurs r S S' p) (hf : ∀ a, Recurs r (f a) (f' a) q)
    (hp : ∀ {a k b}, (f a k).1 = .ok b → q b → p a) : Recurs r (S >>= f) (S' >>= f') q where
  learns := learns_bind h.learns fun a => (hf a).learns
  learns' := learns_bind h.learns' fun a => (hf a).learns'
  again {k k' b} hk hk' hrecalls hb hq := by
    rw [bind_apply] at hb hrecalls ⊢
    have hlearns := h.learns k hk
    cases hs : S k with | mk answer k₁ =>
    rw [hs] at hb hrecalls hlearns
    cases answer with
    | error e => cases hb
    | ok a =>
      -- what the continuation leaves behind recalls what the first part left
      obtain ⟨hk₁, -⟩ := hlearns
      have hmiddle : k'.Recalls r (S k).2 := by
        rw [hs]
        exact hrecalls.trans ((hf a).learns k₁ hk₁).2
      have hagain := h.again hk hk' hmiddle (by rw [hs]) (hp hb hq)
      obtain ⟨hk'₁, hrecalls'⟩ := h.learns' k' hk'
      cases hs' : S' k' with | mk answer' k'₁ =>
      rw [hs'] at hagain hk'₁ hrecalls'
      cases hagain
      exact (hf a).again hk₁ hk'₁ (hrecalls'.trans hrecalls) hb hq

/-- A search whose every answer comes back, and then another one. -/
theorem Recur.bind {f f' : α → Search β} {q : β → Prop} (h : Recur r S S') (hf : ∀ a, Recurs r (f a) (f' a) q) :
    Recurs r (S >>= f) (S' >>= f') q :=
  Recurs.bind h hf fun _ _ => trivial

/-- An answer, taken further without asking. -/
theorem Recurs.map {f : α → β} {q : β → Prop} (h : Recurs r S S' p) (hp : ∀ a, q (f a) → p a) :
    Recurs r (do pure (f (← S))) (do pure (f (← S'))) q :=
  h.bind (fun _ => recurs_pure fun _ => rfl) fun {a _ _} hb hq => by
    cases hb
    exact hp a hq

theorem Recur.map {f : α → β} (h : Recur r S S') : Recur r (do pure (f (← S))) (do pure (f (← S'))) :=
  Recurs.map h fun _ _ => trivial

/-- Two searches that are told apart by the same test. -/
theorem recurs_ite {T T' : Search α} {b b' : Bool} (hb : b' = b) (hS : Recurs r S S' p) (hT : Recurs r T T' p) :
    Recurs r (if b then S else T) (if b' then S' else T') p := by
  subst hb
  cases b' with
  | true => exact hS
  | false => exact hT

/-! ## Members -/

section Members

variable (hr : r.SteadyTo r')

include hr

theorem recur_method (c : ClassId) (s : Signature) : Recur r (method r c s) (method r' c s) where
  learns _ hk := ⟨hk.findMethod r c s, Introspector.recalls_findMethod hk r c s⟩
  learns' _ hk := ⟨hk.findMethod r' c s, .steady hr (Introspector.recalls_findMethod hk r' c s)⟩
  again hk hk' hrecalls ha _ :=
    Introspector.findMethod_again (congrFun hr.isAlive_eq c) hk hk' ha hrecalls

theorem recur_field (c : ClassId) (name : String) : Recur r (field r c name) (field r' c name) where
  learns _ hk := ⟨hk.mapOf r c, Introspector.recalls_mapOf hk r c⟩
  learns' _ hk := ⟨hk.mapOf r' c, .steady hr (Introspector.recalls_mapOf hk r' c)⟩
  again {k k' a} hk hk' hrecalls ha _ := by
    change Except.ok (k.findField r c name).1 = .ok a at ha
    change Except.ok (k'.findField r' c name).1 = .ok a
    rw [Introspector.findField_again (congrFun hr.isAlive_eq c) hk hk' hrecalls]
    exact ha

theorem recur_accessor (c : ClassId) (lead property : String) {args args' : List Value}
    (hargs : args'.map (·.type) = args.map (·.type)) :
    Recur r (accessor r c lead property args) (accessor r' c lead property args') := by
  unfold accessor
  split
  · exact recurs_pure fun _ => rfl
  · simp only [Signature.ofArgs, hargs]
    apply (recur_method hr c _).bind
    intro found
    cases found with
    | some m => exact recurs_pure fun _ => rfl
    | none => exact recur_method hr c _

end Members

end Search

/-! ## Families -/

theorem Registry.isArray_growsTo (hr : r.GrowsTo r') (hc : c.index < r.size) : r'.isArray c = r.isArray c := by
  unfold isArray
  rw [hr.class?_eq hc]

section Families

variable (hp : r.Proper) (hinit : Registry.initial.GrowsTo r) (hr : r.SteadyTo r') (hc : c.index < r.size)

include hp hinit hr hc

theorem Indexed.recur_search (s : Signature) : Search.Recur r (search r c s) (search r' c s) := by
  unfold search
  refine Search.recurs_ite (Registry.isArray_growsTo hr.growsTo hc) (Search.recurs_pure fun _ => rfl) ?_
  refine Search.recurs_ite (Registry.isAssignable_growsTo hp hinit hr.growsTo hc (by decide)) ?_
    (Search.recurs_pure fun _ => rfl)
  exact (Search.recur_method hr c s).map

namespace Reader

omit hp hinit hc in
theorem recur_searchAccessor (c : ClassId) (lead : String) (key : Value) (f : Method → String → ReadRoute) :
    Search.Recur r (searchAccessor r c lead key f) (searchAccessor r' c lead key f) := by
  unfold searchAccessor
  split
  · exact Search.recurs_pure fun _ => rfl
  · exact (Search.recur_accessor hr c lead _ rfl).map

theorem recur_searchRoute (key : Value) (family : ReadFamily) :
    Search.Recur r (searchRoute r c key family) (searchRoute r' c key family) := by
  cases family with
  | field =>
    simp only [searchRoute]
    split
    · exact Search.recurs_pure fun _ => rfl
    · exact (Search.recur_field hr c _).map
  | map =>
    exact Search.recurs_ite (Registry.isAssignable_growsTo hp hinit hr.growsTo hc (by decide))
      (Search.recur_method hr c _).map (Search.recurs_pure fun _ => rfl)
  | list =>
    simp only [searchRoute]
    split
    · exact Search.recurs_pure fun _ => rfl
    · exact (Indexed.recur_search hp hinit hr hc _).map
  | getter => exact recur_searchAccessor hr c "get" key .getter
  | flag => exact (recur_searchAccessor hr c "is" key .flag).map
  | duck =>
    apply (Search.recur_method hr c _).bind
    intro found
    cases found with
    | some m => exact Search.recurs_pure fun _ => rfl
    | none =>
      simp only
      split
      · exact Search.recurs_pure fun _ => rfl
      · exact (Search.recur_method hr c _).map

end Reader

theorem Resolver.recur_reader (key : Value) (resolver : Resolver) :
    Search.Recur r (reader r c key resolver) (reader r' c key resolver) := by
  have hfamily : ∀ family, Search.Recur r (Reader.search r c key family) (Reader.search r' c key family) := fun _ =>
    (Reader.recur_searchRoute hp hinit hr hc key _).map
  cases resolver with
  | property =>
    apply (hfamily .getter).bind
    intro found
    cases found with
    | some b => exact Search.recurs_pure fun _ => rfl
    | none => exact hfamily .flag
  | map | list | duck | field => exact hfamily _

namespace Writer

variable {v v' : Value} (hv : v'.type = v.type)

include hv

/-- Values of one type are written the same way, except that a field may come to take them. -/
theorem recurs_searchRoute (key : Value) (family : WriteFamily) :
    Search.Recurs r (searchRoute r c key v family) (searchRoute r' c key v' family)
      fun found => family = .field → found.isSome = true := by
  have hpair : ∀ (name : String) (first : Value),
      Signature.ofArgs name [first, v'] = Signature.ofArgs name [first, v] := by
    intro name first
    simp only [Signature.ofArgs, List.map_cons, List.map_nil, hv]
  cases family with
  | field =>
    simp only [searchRoute]
    split
    · exact Search.recurs_pure fun _ => rfl
    · apply (Search.recur_field hr c _).bind
      intro found
      apply Search.recurs_pure
      intro hsome
      -- the conversion that there was is still there
      obtain ⟨route, hroute⟩ := Option.isSome_iff_exists.1 (hsome trivial)
      obtain ⟨f, hf, -⟩ := Option.map_eq_some_iff.1 hroute
      obtain ⟨rfl, htakes⟩ := Option.filter_eq_some_iff.1 hf
      rw [hf]
      congr 1
      apply Option.filter_some_pos
      rw [Bool.and_eq_true] at htakes ⊢
      obtain ⟨cost, hcost⟩ := Option.isSome_iff_exists.1 htakes.2
      refine ⟨htakes.1, ?_⟩
      rw [hv, conversionCost_some_growsTo hp hr.growsTo hcost]
      rfl
  | map =>
    simp only [searchRoute, hpair]
    exact (Search.recurs_ite (Registry.isAssignable_growsTo hp hinit hr.growsTo hc (by decide))
      (Search.recur_method hr c _).map (Search.recurs_pure fun _ => rfl)).imp fun _ _ => trivial
  | list =>
    simp only [searchRoute, hpair]
    split
    · exact Search.recurs_pure fun _ => rfl
    · exact (Indexed.recur_search hp hinit hr hc _).map.imp fun _ _ => trivial
  | setter =>
    simp only [searchRoute, hv]
    split
    · exact Search.recurs_pure fun _ => rfl
    · exact (Search.recur_accessor hr c "set" _ (by simp [hv])).map.imp fun _ _ => trivial
  | duck =>
    simp only [searchRoute, searchDuck, hpair, hv]
    apply (Search.recur_method hr c _).bind
    intro found
    cases found with
    | some m => exact Search.recurs_pure fun _ => rfl
    | none => exact (Search.recur_method hr c _).map.imp fun _ _ => trivial

end Writer

theorem Resolver.recurs_writer {v v' : Value} (hv : v'.type = v.type) (key : Value) (resolver : Resolver) :
    Search.Recurs r (writer r c key v resolver) (writer r' c key v' resolver)
      fun found => resolver = .field → found.isSome = true := by
  have hfamily : ∀ family, Search.Recurs r (Writer.search r c key v family) (Writer.search r' c key v' family)
      fun found => family = .field → found.isSome = true := by
    intro family
    refine (Writer.recurs_searchRoute hp hinit hr hc hv key family).map fun found h hfield => ?_
    simpa using h hfield
  cases resolver with
  | field => exact (hfamily .field).imp fun _ h _ => h rfl
  | property | map | list | duck => exact (hfamily _).imp fun _ _ hfield => by cases hfield

theorem Strategy.resolvers_steady (σ : Strategy) (style : AccessStyle) :
    σ.resolvers r' c style = σ.resolvers r c style := by
  unfold resolvers
  rw [Registry.isAssignable_growsTo hp hinit hr.growsTo hc (by decide)]

end Families

/-! ## Orders -/

/-- Fields come last in every order. -/
theorem Strategy.field_last (σ : Strategy) (r : Registry) (c : ClassId) (style : AccessStyle) :
    .field ∉ (σ.resolvers r c style).dropLast := by
  unfold resolvers
  split
  · decide
  · cases style <;> decide

/-- **A search in some order recurs** when what comes before the last place does in full, and what comes last
whenever it has found something. -/
theorem Search.recurs_firstAlive {alive : β → Bool} {find find' : Resolver → Search (Option β)} {order : List Resolver}
    (hlast : ∀ x, Recurs r (find x) (find' x) fun found => found.isSome = true)
    (h : ∀ x ∈ order.dropLast, Recur r (find x) (find' x)) :
    Recurs r (firstAlive alive (order.map find)) (firstAlive alive (order.map find')) fun found =>
      found.isSome = true := by
  induction order with
  | nil => exact recurs_pure fun _ => rfl
  | cons x rest ih =>
    have hrest := ih fun y hy => h y (by
      cases rest with
      | nil => cases hy
      | cons z rest => exact List.mem_cons_of_mem _ hy)
    -- in the last place only what is found has to come back
    obtain ⟨p, hx, hp⟩ : ∃ p : Option β → Prop, Recurs r (find x) (find' x) p ∧
        ∀ found, (rest = [] → found.isSome = true) → p found := by
      cases rest with
      | nil => exact ⟨_, hlast x, fun _ hsome => hsome rfl⟩
      | cons y rest => exact ⟨_, h x List.mem_cons_self, fun _ _ => trivial⟩
    refine hx.bind (fun found => ?_) fun {found k b} hb hsome => hp found ?_
    · split
      · exact recurs_pure fun _ => rfl
      · exact hrest
    · rintro rfl
      cases found with
      | some b => rfl
      | none => cases hb; cases hsome

section Orders

variable (hp : r.Proper) (hinit : Registry.initial.GrowsTo r) (hr : r.SteadyTo r') {target target' : Value}
  (hc : target.cls.index < r.size) (hcls : target'.cls = target.cls) (hnull : target'.isNull = target.isNull)

include hp hinit hr hc hcls hnull

/-- **A reader that has been found is found again** for every target of the class. -/
theorem Resolver.recurs_firstReader (σ : Strategy) (style : AccessStyle) (key : Value) :
    Search.Recurs r (firstReader (σ.resolvers r target.cls style) r target key)
      (firstReader (σ.resolvers r' target'.cls style) r' target' key) fun found => found.isSome = true := by
  have halive : (fun b : Reader => b.isAlive r') = fun b => b.isAlive r := by
    funext b
    unfold Reader.isAlive
    rw [hr.isAlive_eq]
  unfold firstReader
  rw [hcls, σ.resolvers_steady hp hinit hr hc, halive]
  refine Search.recurs_ite hnull (Search.recurs_pure fun _ => rfl) ?_
  apply Search.recurs_firstAlive
  · exact fun _ => (recur_reader hp hinit hr hc key _).imp fun _ _ => trivial
  · exact fun _ _ => recur_reader hp hinit hr hc key _

/-- **A writer that has been found is found again** for every target of the class and every value of the type. -/
theorem Resolver.recurs_firstWriter (σ : Strategy) (style : AccessStyle) (key : Value) {v v' : Value}
    (hv : v'.type = v.type) :
    Search.Recurs r (firstWriter (σ.resolvers r target.cls style) r target key v)
      (firstWriter (σ.resolvers r' target'.cls style) r' target' key v') fun found => found.isSome = true := by
  have halive : (fun b : Writer => b.isAlive r') = fun b => b.isAlive r := by
    funext b
    unfold Writer.isAlive
    rw [hr.isAlive_eq]
  unfold firstWriter
  rw [hcls, σ.resolvers_steady hp hinit hr hc, halive]
  refine Search.recurs_ite hnull (Search.recurs_pure fun _ => rfl) ?_
  apply Search.recurs_firstAlive
  · exact fun _ => (recurs_writer hp hinit hr hc hv key _).imp fun _ hsome _ => hsome
  · intro x hx
    refine (recurs_writer hp hinit hr hc hv key x).imp fun found _ hfield => ?_
    -- only the last place may be that of fields
    subst hfield
    exact absurd hx (σ.field_last r target.cls style)

end Orders

/-- Queries keep a memory in order and grounded. -/
theorem Introspector.keptByQueries_grounded (r : Registry) : KeptByQueries r fun k => k.InOrder ∧ k.Grounded r :=
  keptByQueries_of_touch fun t h => ⟨inOrder_touch h.1 _ t, grounded_touch h.2 t⟩

/-- A class with a way into its instances is registered. -/
theorem LeadsInto.registered {member? : Option Member}
    (h : LeadsInto (fun k => k.InOrder ∧ k.Grounded r) r c member?) : c.index < r.size := by
  cases member? with
  | none =>
    obtain ⟨d, hd, -⟩ := Registry.exists_array h
    exact Registry.index_lt hd
  | some m =>
    cases h with
    | field hk h =>
      obtain ⟨d, hd, -⟩ := hk.2.findField hk.1 h
      exact Registry.index_lt hd
    | @method k _ _ hk h =>
      -- no map answers no method
      rw [Introspector.findMethod_answer] at h
      cases hm : (k.mapOf r c).1 with
      | none => rw [hm] at h; cases h
      | some m =>
        obtain ⟨d, hd, -⟩ := hk.2.own hk.1 hm
        exact Registry.index_lt hd

end MemberAccess
