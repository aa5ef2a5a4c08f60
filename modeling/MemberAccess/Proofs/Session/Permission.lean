import MemberAccess.Proofs.Session

/-!
# Engines bind only what their policies show

Whatever has happened in a session, a binding that an engine finds goes through a member that the
engine's policy exposes, on a class that it shows; and an ambiguous call names exposed members alone.

* `sound_run`: the memory of every engine is sound in every run.
* `permitted_search`: the binding, whatever was asked for.
-/

namespace MemberAccess

/-- What a policy has to allow for a binding. -/
structure Binding.Permitted (P : Policy) (r : Registry) (d : Discovery) (b : Binding) : Prop where
  /-- the class that members were looked for on -/
  on : ∃ c, d.on? r = some c ∧ P.ShowsId r c
  /-- the class that the binding serves -/
  cls : P.ShowsId r b.cls
  member : ∀ m ∈ b.member?, P.Exposes r m

section Origin

variable {P : Policy} {r : Registry} {c : ClassId} {k : Introspector}

theorem Answered.exposed (hr : r.Proper) {m : Member} (h : Answered (·.Sound P r) r c m) :
    P.Exposes r m ∧ P.ShowsId r c := by
  cases h with
  | method hk h => exact (hk.findMethod hr _ _).2.1 _ h
  | field hk h => exact hk.findField hr h

/-- Arrays are always shown. -/
theorem Policy.showsId_of_isArray (h : r.isArray c = true) : P.ShowsId r c := by
  obtain ⟨d, hd, harray⟩ := Registry.exists_array h
  refine ⟨d, hd, ?_⟩
  unfold Policy.allowsClass
  rw [harray]
  rfl

theorem Policy.ExposesConstructor.showsId {x : Constructor} (h : P.ExposesConstructor r x) :
    P.ShowsId r x.declaring := by
  obtain ⟨d, hd, -, -, -, hallow⟩ := h
  unfold Policy.allowsConstructor at hallow
  exact ⟨d, hd, (Bool.and_eq_true_iff.1 hallow).1⟩

theorem LeadsInto.exposed (hr : r.Proper) {member? : Option Member}
    (h : LeadsInto (·.Sound P r) r c member?) : (∀ m ∈ member?, P.Exposes r m) ∧ P.ShowsId r c := by
  cases member? with
  | none => exact ⟨fun m hm => (by cases hm), Policy.showsId_of_isArray h⟩
  | some m =>
    obtain ⟨hm, hc⟩ := Answered.exposed hr h
    exact ⟨fun m' hm' => (by cases hm'; exact hm), hc⟩

/-- A binding that comes from a sound memory is permitted. -/
theorem Discovery.Found.permitted (hr : r.Proper) {d : Discovery} {b : Binding}
    (h : d.Found (·.Sound P r) r b) : b.Permitted P r d := by
  cases h with
  | member on cls into =>
    obtain ⟨hmember, hc⟩ := into.exposed hr
    exact ⟨⟨_, on, hc⟩, cls ▸ hc, hmember⟩
  | @constructor k name args b hk answer =>
    obtain ⟨hx, d, hd, hallow⟩ := (hk.findConstructor hr name args).2.1 _ answer
    -- the class of that name is the one at its own position
    obtain ⟨-, c, hc⟩ := Registry.named?_some hd
    refine ⟨⟨d.id, ?_, d, ?_, hallow⟩, hx.showsId, fun m hm => (by cases hm; exact hx)⟩
    · simp only [Discovery.on?, Registry.idOf?, hd, Option.map_some]
    · rw [hr.id hc]
      exact hc

theorem Tied.within (hr : r.Proper) {a : AmbiguousCall} (h : Tied (·.Sound P r) r a) : a.Within P r := by
  cases h with
  | method hk h => exact (hk.findMethod hr _ _).2.2 _ h
  | constructor hk h => exact (hk.findConstructor hr _ _).2.2 _ h

end Origin

namespace Session

theorem invariant_sound (P : Policy) : Invariant fun r k => r.Proper ∧ k.Sound P r where
  touch t h := ⟨h.1, Introspector.sound_touch h.1 h.2 t⟩
  change c h := ⟨Registry.proper_apply h.1 c, h.2.growsTo (Registry.growsTo_apply _ c)⟩

/-- **The memories of a session are sound in every run.** -/
theorem sound_run (policy : Nat → Policy) (strategy : Nat → Strategy) (heap : Heap) (es : List Event)
    (i : Nat) :
    ((start policy strategy heap).run es).registry.Proper ∧
      (((start policy strategy heap).run es).memory i).Sound (policy i)
        ((start policy strategy heap).run es).registry :=
  (invariant_sound (policy i)).run ⟨Registry.proper_initial, Introspector.sound_new _ _⟩ es

/-- **Engines bind only what their policies show**: in every run, for whatever an engine is asked to find,
the class that is asked about, the class that the binding serves and the member that it goes through
are visible to the engine's policy, and an ambiguous call describes visible members only. -/
theorem permitted_search (policy : Nat → Policy) (strategy : Nat → Strategy) (heap : Heap)
    (es : List Event) (i : Nat) (d : Discovery) :
    let s := (start policy strategy heap).run es
    let found := (d.search (s.engines i) s.registry (s.memory i)).1
    (∀ b, found = .ok (some b) → b.Permitted (policy i) s.registry d) ∧
      ∀ a, found = .error a → a.Within (policy i) s.registry := by
  intro s found
  obtain ⟨hr, hk⟩ := sound_run policy strategy heap es i
  -- a search only asks queries, and these keep the memory sound
  have hkept : Introspector.KeptByQueries s.registry (·.Sound (policy i) s.registry) :=
    Introspector.keptByQueries_of_touch fun t h => Introspector.sound_touch hr h t
  obtain ⟨-, hfound, htied⟩ := d.ensures_search hkept (s.engines i) (s.memory i) hk
  refine ⟨?_, fun a ha => (htied a ha).within hr⟩
  intro b hb
  exact ((hfound _ hb) b rfl).1.permitted hr

end Session

end MemberAccess
