import MemberAccess.Proofs.Introspection.Exposure

/-!
# Sound memories

A memory is **sound** for a policy when everything it holds is exposed: the maps, those that have been
dropped as well, and the constructors chosen so far. A query on a sound memory answers exposed members.

* `sound_touch`, `Sound.growsTo`: touches keep a memory sound, and so does the growth of the registry.
* `Sound.findMethod`, `Sound.findField`, `Sound.findConstructor`: the answers.
-/

namespace MemberAccess

variable {P : Policy} {r r' : Registry} {k : Introspector}

/-- A class that a policy shows. -/
def Policy.ShowsId (P : Policy) (r : Registry) (c : ClassId) : Prop :=
  ∃ d, r.class? c = some d ∧ P.allowsClass d = true

theorem Policy.ShowsId.growsTo {c : ClassId} (hr : r.GrowsTo r') (h : P.ShowsId r c) : P.ShowsId r' c := by
  obtain ⟨d, hd, h⟩ := h
  exact ⟨d, hr.class?_some hd, h⟩

/-- The candidates of a tie are described by exposed members. -/
def AmbiguousCall.Within (P : Policy) (r : Registry) (a : AmbiguousCall) : Prop :=
  ∀ t ∈ a.candidates, P.Describes r t

theorem Lookup.Within.answer {α : Type} {good : α → Prop} {l : Lookup α}
    (h : l.Within good (P.Describes r)) (cls : String) (s : Signature) :
    (∀ a, l.answer r cls s = .ok (some a) → good a) ∧ ∀ e, l.answer r cls s = .error e → e.Within P r := by
  cases l with
  | found a =>
    refine ⟨?_, fun e he => (by cases he)⟩
    intro b hb
    cases hb
    exact h
  | miss => exact ⟨fun a ha => (by cases ha), fun e he => (by cases he)⟩
  | ambiguous candidates =>
    refine ⟨fun a ha => (by cases ha), ?_⟩
    intro e he
    cases he
    exact h

namespace Introspector

/-- Everything in the memory is exposed. -/
structure Sound (P : Policy) (r : Registry) (k : Introspector) : Prop where
  policy : k.policy = P
  shown : ∀ {c m}, (c, some m) ∈ k.maps → P.ShowsId r c
  held : ∀ m ∈ k.held, m.Sound P r
  constructors : ∀ e ∈ k.constructors, e.2.Within (P.ExposesConstructor r) (P.Describes r)

/-- A memory that has not been used holds nothing. -/
theorem sound_new (P : Policy) (r : Registry) : Sound P r { policy := P } where
  policy := rfl
  shown h := by cases h
  held _ h := by cases h
  constructors _ h := by cases h

theorem Sound.growsTo (hr : r.GrowsTo r') (h : k.Sound P r) : k.Sound P r' where
  policy := h.policy
  shown hm := (h.shown hm).growsTo hr
  held m hm := (h.held m hm).growsTo hr
  constructors e he := (h.constructors e he).imp (fun _ => .growsTo hr) (fun _ => .growsTo hr)

theorem Sound.kept (h : k.Sound P r) {c : ClassId} {m : ClassMap} (hm : (c, some m) ∈ k.maps) :
    m.Sound P r := h.held m (mem_held.2 (Or.inl ⟨c, hm⟩))

/-- Dropping a map only moves it. -/
theorem Sound.purge (h : k.Sound P r) (c : ClassId) : (k.purge r c).2.Sound P r where
  policy := h.policy
  shown hm := h.shown (List.mem_of_mem_filter hm)
  held m hm := h.held m (mem_held_purge hm)
  constructors e he := h.constructors e (mem_constructors_purge he)

/-- Putting a sound map in the place of a class that is shown. -/
theorem Sound.put (h : k.Sound P r) {c : ClassId} {m : Option ClassMap} {serials : Nat}
    (hm : ∀ m' ∈ m, m'.Sound P r ∧ P.ShowsId r c) :
    Sound P r { k with maps := Assoc.put c m k.maps, serials := serials } where
  policy := h.policy
  shown hmem := by
    rcases Assoc.mem_put hmem with heq | hmem
    · cases heq
      exact (hm _ rfl).2
    · exact h.shown hmem
  held m' hm' := (mem_held_put hm').elim (fun hmem => (hm m' hmem).1) (h.held m')
  constructors := h.constructors

/-- **The map of a class** is sound, and the class is shown. -/
theorem Sound.mapOf (hr : r.Proper) (h : k.Sound P r) (c : ClassId) :
    (k.mapOf r c).2.Sound P r ∧ ∀ m, (k.mapOf r c).1 = some m → m.Sound P r ∧ P.ShowsId r c := by
  rcases mapOf_cases k r c with ⟨kept, hget, -, e⟩ | ⟨m, -, -, e⟩ | ⟨-, e⟩ <;> rw [e]
  · -- a map that is kept
    refine ⟨h, ?_⟩
    intro m hm
    simp only at hm
    subst hm
    have hmem := Assoc.mem_of_get? hget
    exact ⟨h.kept hmem, h.shown hmem⟩
  · exact ⟨h.purge c, fun m hm => (by cases hm)⟩
  · -- a map that has just been made, with the next serial
    have hmade : ∀ m ∈ k.made r c, m.Sound P r ∧ P.ShowsId r c := by
      intro m hm
      obtain ⟨m', hm', rfl⟩ := Option.map_eq_some_iff.1 hm
      rw [h.policy] at hm'
      obtain ⟨d, hd, -, hallow, -⟩ := ClassMap.build_eq_some hm'
      have hs := ClassMap.sound_build hr hm'
      exact ⟨⟨hs.admitted, hs.fields, hs.index⟩, d, hd, hallow⟩
    exact ⟨h.put hmade, hmade⟩

/-- **The method for a signature** is exposed, its class shown, and a tie is among exposed methods. -/
theorem Sound.findMethod (hr : r.Proper) (h : k.Sound P r) (c : ClassId) (s : Signature) :
    (k.findMethod r c s).2.Sound P r ∧
      (∀ m, (k.findMethod r c s).1 = .ok (some m) → P.ExposesMethod r m ∧ P.ShowsId r c) ∧
      ∀ e, (k.findMethod r c s).1 = .error e → e.Within P r := by
  obtain ⟨hk, hm⟩ := h.mapOf hr c
  rcases findMethod_cases k r c s with ⟨-, e⟩ | ⟨m, k', hmap, e⟩ <;> rw [e]
  · exact ⟨hk, fun m hm => (by cases hm), fun e he => (by cases he)⟩
  · rw [hmap] at hk hm
    obtain ⟨hms, hc⟩ := hm m rfl
    obtain ⟨hfound, htie⟩ := (hms.lookup hr s).answer m.className s
    exact ⟨hk.put (fun _ hm' => (by cases hm'; exact ⟨hms.remember hr s, hc⟩)),
      fun x hx => ⟨hfound x hx, hc⟩, htie⟩

/-- **The field of a name** is exposed, and its class is shown. -/
theorem Sound.findField (hr : r.Proper) (h : k.Sound P r) {c : ClassId} {name : String} {f : Field}
    (hf : (k.findField r c name).1 = some f) : P.ExposesField r f ∧ P.ShowsId r c := by
  obtain ⟨m, hm, hf⟩ := Option.bind_eq_some_iff.1 hf
  obtain ⟨hms, hc⟩ := (h.mapOf hr c).2 m hm
  exact ⟨hms.fields f (List.mem_reverse.1 (List.mem_of_find?_eq_some hf)), hc⟩

/-- The constructors that scripts may use of a class that they may make instances of. -/
theorem exposes_shownConstructors (hr : r.Proper) (hk : k.policy = P) {name : String} {d : ClassDef}
    (hd : r.named? name = some d) (hc : k.constructible r d = true) :
    ∀ x ∈ k.shownConstructors d, P.ExposesConstructor r x := by
  intro x hx
  obtain ⟨-, c, hdc⟩ := Registry.named?_some hd
  unfold constructible at hc
  simp only [Bool.and_eq_true] at hc
  unfold shownConstructors at hx
  obtain ⟨hmem, hshown⟩ := List.mem_filter.1 hx
  rw [Bool.and_eq_true, hk] at hshown
  refine ⟨d, ?_, hmem, hc.1.1.2, hshown.1, hshown.2⟩
  rw [(hr.owns hdc).constructors x hmem, hr.id hdc, hdc]

/-- **The constructor for a call** is exposed, the class of that name shown, and a tie is among exposed
constructors. -/
theorem Sound.findConstructor (hr : r.Proper) (h : k.Sound P r) (name : String) (args : List Value) :
    (k.findConstructor r name args).2.Sound P r ∧
      (∀ c, (k.findConstructor r name args).1 = .ok (some c) → P.ExposesConstructor r c ∧
        ∃ d, r.named? name = some d ∧ P.allowsClass d = true) ∧
      ∀ e, (k.findConstructor r name args).1 = .error e → e.Within P r := by
  rcases findConstructor_cases k r name args with e | ⟨d, hd, hc, e⟩ <;> rw [e]
  · exact ⟨h, fun c hc => (by cases hc), fun e he => (by cases he)⟩
  · have hlook : (k.constructorLookup r d (.ofArgs name args)).Within (P.ExposesConstructor r)
        (P.Describes r) := by
      -- remembered from a sound memory, or ranked among the constructors that are shown
      unfold constructorLookup
      split
      · rename_i known hknown
        exact h.constructors _ (Assoc.mem_of_get? hknown)
      · apply Lookup.within_ofChoice (exposes_shownConstructors hr h.policy hd hc)
        intro x hx
        exact ⟨r, hr, .refl r, Or.inr ⟨x, hx, rfl⟩⟩
    have hallow : P.allowsClass d = true := by
      unfold constructible at hc
      rw [h.policy] at hc
      exact (Bool.and_eq_true_iff.1 hc).2
    obtain ⟨hfound, htie⟩ := hlook.answer name (.ofArgs name args)
    refine ⟨⟨h.policy, h.shown, h.held, ?_⟩, fun x hx => ⟨hfound x hx, d, hd, hallow⟩, htie⟩
    intro entry he
    rcases Assoc.mem_put he with rfl | he
    · exact hlook
    · exact h.constructors entry he

/-- A lookup in a map that someone holds. -/
theorem Sound.findInHeld (hr : r.Proper) (h : k.Sound P r) {m : ClassMap} (hm : m ∈ k.held) (s : Signature) :
    (k.findInHeld r m s).2.Sound P r := by
  refine ⟨h.policy, ?_, ?_, h.constructors⟩
  · intro c n hn
    obtain ⟨⟨c', kept⟩, hmem, heq⟩ := List.mem_map.1 hn
    cases kept with
    | none => cases heq
    | some n' => cases heq; exact h.shown hmem
  · -- every map that is held is as it was, or the one that has looked something up
    intro n hn
    rw [held_findInHeld] at hn
    obtain ⟨n', hn', rfl⟩ := List.mem_map.1 hn
    split
    · exact (h.held m hm).remember hr s
    · exact h.held n' hn'

/-- **A touch keeps a memory sound.** -/
theorem sound_touch (hr : r.Proper) (h : k.Sound P r) (t : Touch) : (k.touch r t).Sound P r := by
  cases t with
  | map c => exact (h.mapOf hr c).1
  | method c s => exact (h.findMethod hr c s).1
  | constructor name args => exact (h.findConstructor hr name args).1
  | purge c => exact h.purge c
  | held serial s =>
    simp only [touch]
    split
    · rename_i m hm
      exact h.findInHeld hr (mem_held_of_held? hm).1 s
    · exact h

end Introspector

end MemberAccess
