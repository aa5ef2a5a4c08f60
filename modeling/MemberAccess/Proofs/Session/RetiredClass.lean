import MemberAccess.Proofs.Binding.Barren
import MemberAccess.Proofs.Introspection.History
import MemberAccess.Proofs.Registry.Reach
import MemberAccess.Proofs.Session

/-!
# What is found after a retirement

An engine never finds a binding to a member that is dead at that moment. On a class that has been retired it
finds nothing at all, whatever it remembers. The constructors of a class are looked for by its name, though: when
an array class has the same name, and a tie among the constructors was remembered before the retirement, the
tie comes up again.

* `Introspector.NamesMakers`: a constructor that is remembered for a name belongs to a class of that name.
* `invariant_oldTies`: a tie for the name of a retired class has been remembered all along.
* `found_alive`, `retired_search`: what engines find.
* `not_retired_search`: not always nothing.
-/

namespace MemberAccess

/-- The members that a binding goes through are alive; one to the elements of an array always is. -/
def Binding.isAlive (r : Registry) : Binding → Bool
  | reader b => b.isAlive r
  | writer b => b.isAlive r
  | caller b => b.isAlive r
  | creator b => b.isAlive r

theorem Binding.isAlive_iff {r : Registry} {b : Binding} : b.isAlive r = true ↔ r.Living b.member? := by
  cases b with
  | reader b => exact Reader.isAlive_iff
  | writer b => exact Writer.isAlive_iff
  | caller b => simp [isAlive, Caller.isAlive, Registry.Living, member?, Member.declaring]
  | creator b => simp [isAlive, Creator.isAlive, Creator.cls, Registry.Living, member?, Member.declaring]

/-! ## What is remembered about constructors -/

variable {r : Registry} {k : Introspector} {c : ClassId} {d : ClassDef}

namespace Introspector

/-- A constructor that is remembered for a name belongs to a class of that name. -/
def NamesMakers (r : Registry) (k : Introspector) : Prop :=
  ∀ s x, (s, Lookup.found x) ∈ k.constructors →
    ∃ d, r.class? x.declaring = some d ∧ x ∈ d.constructors ∧ d.qualifiedName = s.name

theorem namesMakers_touch (hp : r.Proper) (hk : k.NamesMakers r) (t : Touch) : (k.touch r t).NamesMakers r := by
  intro s x h
  rcases mem_constructors_touch h with h | ⟨name, args, d, hd, -, heq⟩
  · exact hk s x h
  · obtain ⟨rfl, hfound⟩ := Prod.mk.inj heq
    obtain ⟨hname, c, hc⟩ := Registry.named?_some hd
    have hx : x ∈ d.constructors := (of_ranked_found hfound.symm).1
    have hdeclaring : x.declaring = c := ((hp.owns hc).constructors x hx).trans (hp.id hc)
    exact ⟨d, hdeclaring ▸ hc, hx, hname⟩

end Introspector

/-! ## The name of a retired class -/

/-- A class is dead once its retirement has been answered with true. -/
theorem Registry.dead_of_retire (h : (r.retire c).1 = true) : (r.apply (.retire c)).isAlive c = false := by
  change (r.retire c).2.isAlive c = false
  rcases r.retire_cases c with ⟨-, -, heq⟩ | heq <;> rw [heq] at h ⊢
  · simp [isAlive]
  · cases h

/-- The name of a class that has been retired stands for that class, or for an array class. -/
theorem named?_retired (hp : r.Proper) (hd : r.class? c = some d) (harray : d.isArray = false)
    (hdead : r.isAlive c = false) {d' : ClassDef} (hd' : r.named? d.qualifiedName = some d')
    (hmake : k.constructible r d' = true) : d'.isArray = true ∧ r.isAlive d'.id = true := by
  obtain ⟨hname, c', hc'⟩ := Registry.named?_some hd'
  have halive : r.isAlive d'.id = true := by
    unfold Introspector.constructible at hmake
    simp only [Bool.and_eq_true] at hmake
    exact hmake.1.1.1
  refine ⟨?_, halive⟩
  cases harray' : d'.isArray with
  | true => rfl
  | false =>
    -- a declared class of that name is the very class, and that is dead
    rw [hp.names hc' hd harray' harray hname, hp.id hd, hdead] at halive
    cases halive

/-- Instances can be made of an array class that is alive, as far as that goes. -/
theorem constructible_of_isArray (hmade : r.Made) (hd : r.class? c = some d) (harray : d.isArray = true)
    (halive : r.isAlive d.id = true) : k.constructible r d = true := by
  have hallow : k.policy.allowsClass d = true := by simp [Policy.allowsClass, harray]
  unfold Introspector.constructible
  rw [halive, hallow]
  rcases hmade c d hd with ⟨decl, rfl⟩ | ⟨name, t, rfl⟩
  · cases harray
  · rfl

/-- A constructor that is remembered for the name of a retired class is dead. -/
theorem dead_of_remembered (hp : r.Proper) (hk : k.NamesMakers r) (hd : r.class? c = some d)
    (harray : d.isArray = false) (hdead : r.isAlive c = false) {s : Signature} (hs : s.name = d.qualifiedName)
    {x : Constructor} (hx : Assoc.get? s k.constructors = some (.found x)) : r.isAlive x.declaring = false := by
  obtain ⟨d', hd', hmem, hname⟩ := hk s x (Assoc.mem_of_get? hx)
  have hdeclared : d'.isArray = false := by
    cases harray' : d'.isArray with
    | false => rfl
    | true =>
      rw [hp.bare hd' harray'] at hmem
      cases hmem
  have hsame : d' = d := hp.names hd' hd hdeclared harray (hname.trans hs)
  rw [← hp.id hd', hsame, hp.id hd, hdead]

/-- What is found for the making of an instance, in terms of what the memory answers. -/
theorem search_create (e : Engine) (r : Registry) (k : Introspector) (name : String) (args : List Value) :
    ((Discovery.create name args).search e r k).1 = (k.findConstructor r name args).1.map fun found =>
      ((found.map (⟨·, .ofArgs name args⟩ : Constructor → Creator)).filter (·.isAlive r)).map .creator := by
  unfold Discovery.search Engine.findCreator Creator.search
  simp only [Search.map_apply]
  change Except.map _ (Except.map _ (Except.map _ (k.findConstructor r name args).1)) = _
  cases (k.findConstructor r name args).1 <;> rfl

/-- The name in a call that makes an instance stands for an array class that is alive, and a tie is remembered for
the call. -/
structure TieStands (r : Registry) (k : Introspector) (s : Signature) (tied : List String) : Prop where
  taken : ∃ d, r.named? s.name = some d ∧ d.isArray = true ∧ r.isAlive d.id = true
  tie : Assoc.get? s k.constructors = some (.ambiguous tied)

/-- **Making an instance of a retired class** is an ambiguous call when a tie stands for it. -/
theorem create_of_tie (hmade : r.Made) {name : String} {args : List Value} {tied : List String}
    (h : TieStands r k (.ofArgs name args) tied) (e : Engine) :
    ((Discovery.create name args).search e r k).1 = .error ⟨name, (Signature.ofArgs name args).describe r, tied⟩ := by
  obtain ⟨⟨d, hd, harray, halive⟩, htie⟩ := h
  obtain ⟨-, c, hc⟩ := Registry.named?_some hd
  have hmake := constructible_of_isArray (k := k) hmade hc harray halive
  have hlookup : k.constructorLookup r d (.ofArgs name args) = .ambiguous tied := by
    unfold Introspector.constructorLookup
    rw [htie]
  have hfind : (k.findConstructor r name args).1 =
      .error ⟨name, (Signature.ofArgs name args).describe r, tied⟩ := by
    unfold Introspector.findConstructor
    change r.named? name = some d at hd
    rw [hd]
    simp only [hmake, if_true, hlookup]
    rfl
  rw [search_create, hfind]
  rfl

/-- **Making an instance of a retired class** finds nothing when no tie stands for it. -/
theorem create_of_not_tie (hp : r.Proper) (hk : k.NamesMakers r) (hd : r.class? c = some d)
    (harray : d.isArray = false) (hdead : r.isAlive c = false) {args : List Value}
    (h : ∀ tied, ¬TieStands r k (.ofArgs d.qualifiedName args) tied) (e : Engine) :
    ((Discovery.create d.qualifiedName args).search e r k).1 = .ok none := by
  rw [search_create]
  rcases Introspector.findConstructor_cases k r d.qualifiedName args with heq | ⟨d', hd', hmake, heq⟩ <;> rw [heq]
  · rfl
  · obtain ⟨harray', halive'⟩ := named?_retired hp hd harray hdead hd' hmake
    obtain ⟨-, c', hc'⟩ := Registry.named?_some hd'
    cases hget : Assoc.get? (Signature.ofArgs d.qualifiedName args) k.constructors with
    | none =>
      -- an array class has no constructors to choose from
      rw [Introspector.constructorLookup_of_unknown rfl hget, Introspector.ranked_of_isArray hp hc' harray']
      rfl
    | some known =>
      have hlookup : k.constructorLookup r d' (.ofArgs d.qualifiedName args) = known := by
        unfold Introspector.constructorLookup
        rw [hget]
      rw [hlookup]
      cases known with
      | miss => rfl
      | found x =>
        have hx := dead_of_remembered hp hk hd harray hdead rfl hget
        simp [Lookup.answer, Except.map, Creator.isAlive, Creator.cls, hx]
      | ambiguous tied => exact absurd ⟨⟨d', hd', harray', halive'⟩, hget⟩ (h tied)

namespace Session

/-! ## Every run -/

theorem invariant_namesMakers : Invariant fun r k => r.Proper ∧ k.NamesMakers r where
  touch t h := ⟨h.1, Introspector.namesMakers_touch h.1 h.2 t⟩
  change c h := by
    refine ⟨Registry.proper_apply h.1 c, fun s x hx => ?_⟩
    obtain ⟨d, hd, hmem⟩ := h.2 s x hx
    exact ⟨d, (Registry.growsTo_apply _ c).class?_some hd, hmem⟩

theorem invariant_made : Invariant fun r _ => r.Made where
  touch _ h := h
  change c h := Registry.made_apply h c

/-- A tie for the name of a retired class is one of those that were remembered at some time. -/
structure OldTies (c : ClassId) (d : ClassDef) (old : List (Signature × Lookup Constructor)) (r : Registry)
    (k : Introspector) : Prop where
  proper : r.Proper
  known : r.class? c = some d
  dead : r.isAlive c = false
  ties : ∀ s tied, s.name = d.qualifiedName → (s, .ambiguous tied) ∈ k.constructors → (s, .ambiguous tied) ∈ old

theorem invariant_oldTies (harray : d.isArray = false) (old : List (Signature × Lookup Constructor)) :
    Invariant (OldTies c d old) where
  touch {r k} t h := by
    refine ⟨h.proper, h.known, h.dead, ?_⟩
    intro s tied hs hmem
    rcases Introspector.mem_constructors_touch hmem with hmem | ⟨name, args, d', hd', hmake, heq⟩
    · exact h.ties s tied hs hmem
    · -- what has just been ranked is an array class, so nothing is tied
      obtain ⟨rfl, htied⟩ := Prod.mk.inj heq
      obtain rfl : name = d.qualifiedName := hs
      obtain ⟨harray', -⟩ := named?_retired h.proper h.known harray h.dead hd' hmake
      obtain ⟨-, c', hc'⟩ := Registry.named?_some hd'
      rw [Introspector.ranked_of_isArray h.proper hc' harray'] at htied
      cases htied
  change change h :=
    have hgrows := Registry.growsTo_apply _ change
    ⟨Registry.proper_apply h.proper change, hgrows.class?_some h.known, hgrows.dead h.dead, h.ties⟩

/-- **Engines find only what is alive.** -/
theorem found_alive (s : Session) (i : Nat) {x : Discovery} {b : Binding}
    (h : (x.search (s.engines i) s.registry (s.memory i)).1 = .ok (some b)) : b.isAlive s.registry = true := by
  have hfound := (Discovery.ensures_search (Introspector.keptByQueries_true s.registry) (s.engines i) x
    (s.memory i) trivial).2.1 _ h b rfl
  exact Binding.isAlive_iff.2 hfound.2

/-- A tie that an engine remembers at one time stands at a later one. -/
def Resurfaces (s s' : Session) (i : Nat) (call : Signature) (tied : List String) : Prop :=
  (call, .ambiguous tied) ∈ (s.memory i).constructors ∧ TieStands s'.registry (s'.memory i) call tied

/-- **What engines find after a retirement.** In every run, a binding that is found is alive. Once a class that
is no array class has been retired, nothing is found on it, in whatever way the session goes on. For its
constructors the same holds unless an array class that is alive has taken over its name and the engine goes on
remembering a tie for the call from before the retirement; then the call is ambiguous. -/
theorem retired_search (policy : Nat → Policy) (strategy : Nat → Strategy) (heap : Heap) (es : List Event)
    (i : Nat) :
    let s := (start policy strategy heap).run es
    let find (s : Session) (x : Discovery) := (x.search (s.engines i) s.registry (s.memory i)).1
    (∀ x b, find s x = .ok (some b) → b.isAlive s.registry = true) ∧
    ∀ c d, s.registry.class? c = some d → d.isArray = false → (s.registry.retire c).1 = true → ∀ es',
      let s' := (s.step (.change (.retire c))).run es'
      (∀ x : Discovery, x.On c → find s' x = .ok none) ∧
      ∀ args, let call := Signature.ofArgs d.qualifiedName args
        (∀ tied, s.Resurfaces s' i call tied →
          find s' (.create d.qualifiedName args) = .error ⟨d.qualifiedName, call.describe s'.registry, tied⟩) ∧
        ((∀ tied, ¬s.Resurfaces s' i call tied) → find s' (.create d.qualifiedName args) = .ok none) := by
  intro s find
  refine ⟨fun x b => s.found_alive i, ?_⟩
  intro c d hd harray hretire es' s'
  have hdead : (s.step (.change (.retire c))).registry.isAlive c = false := Registry.dead_of_retire hretire
  -- what holds in every run holds right after the retirement, and from there on
  have hafter {I : Registry → Introspector → Prop} (hI : Invariant I) (h : I .initial { policy := policy i }) :
      I s'.registry (s'.memory i) := hI.run (hI.step (hI.run (s := start policy strategy heap) h es) _) es'
  obtain ⟨hp, hnames⟩ := hafter invariant_namesMakers ⟨Registry.proper_initial, fun _ _ h => by cases h⟩
  have hmade := hafter invariant_made Registry.made_initial
  have horder := hafter invariant_inOrder (Introspector.inOrder_new (policy i))
  have hold : OldTies c d (s.memory i).constructors s'.registry (s'.memory i) := by
    have hproper : s.registry.Proper := (invariant_namesMakers.run (s := start policy strategy heap) (i := i)
      ⟨Registry.proper_initial, fun _ _ h => by cases h⟩ es).1
    have hgrows := Registry.growsTo_apply s.registry (.retire c)
    exact (invariant_oldTies harray _).run (s := s.step (.change (.retire c)))
      ⟨Registry.proper_apply hproper (.retire c), hgrows.class?_some hd, hdead, fun _ _ _ h => h⟩ es'
  refine ⟨?_, ?_⟩
  · intro x hx
    have hdeclared : s'.registry.isArray c = false := by simp [Registry.isArray, hold.known, harray]
    exact (Discovery.barren_search hold.dead hdeclared (s'.engines i) hx (s'.memory i) horder).1
  · intro args call
    refine ⟨fun tied h => create_of_tie hmade h.2 (s'.engines i), ?_⟩
    intro h
    refine create_of_not_tie hp hnames hold.known harray hold.dead ?_ (s'.engines i)
    intro tied hstands
    exact h tied ⟨hold.ties call tied rfl (Assoc.mem_of_get? hstands.tie), hstands⟩

/-- A boolean is asked for its value, the class of booleans is retired, and the boolean is asked again. -/
theorem retired_search_boolean :
    let s := (start (fun _ => .unrestricted) (fun _ => .pojo) {}).run
      [.find 0 (.call (.bool true) "booleanValue" [])]
    let s' := (s.step (.change (.retire .boolean))).run []
    (s.registry.retire .boolean).1 = true ∧
      ((Discovery.call (.bool true) "booleanValue" []).search (s'.engines 0) s'.registry (s'.memory 0)).1 = .ok none := by
  intro s s'
  have hretire : (s.registry.retire .boolean).1 = true := by decide +kernel
  have hd : s.registry.class? .boolean = some (.ofDecl .boolean Core.booleanClass) := rfl
  refine ⟨hretire, ?_⟩
  exact ((retired_search (fun _ => .unrestricted) (fun _ => .pojo) {}
    [.find 0 (.call (.bool true) "booleanValue" [])] 0).2 .boolean _ hd rfl hretire []).1 _ (.call rfl)

/-- A class whose name is that of the arrays of another, with two constructors that both take null. -/
def namesake : List Event :=
  [.change (.register (.ofName "t.Item")),
    .change (.register (((ClassDecl.ofName "t.Item[]").construct [.ofClass .integer] fun _ => pure .null).construct
      [.string] fun _ => pure .null))]

/-- A tie outlives its class: it is remembered for a name, and an array class has the name. -/
theorem not_retired_search :
    ¬ ∀ (policy : Nat → Policy) (strategy : Nat → Strategy) (heap : Heap) (es : List Event) (i : Nat) (c : ClassId)
        (d : ClassDef),
      let s := (start policy strategy heap).run es
      s.registry.class? c = some d → d.isArray = false → (s.registry.retire c).1 = true → ∀ es' args,
        let s' := (s.step (.change (.retire c))).run es'
        ((Discovery.create d.qualifiedName args).search (s'.engines i) s'.registry (s'.memory i)).1 = .ok none := by
  intro h
  let es : List Event := namesake ++
    [.find 0 (.create "t.Item[]" [.null]), .change (.arrayClass (.ofClass ⟨19⟩))]
  let s := (start (fun _ => .unrestricted) (fun _ => .pojo) {}).run es
  let s' := (s.step (.change (.retire ⟨20⟩))).run []
  obtain ⟨hretire, herror⟩ : (s.registry.retire ⟨20⟩).1 = true ∧
      ((Discovery.create "t.Item[]" [.null]).search (s'.engines 0) s'.registry
        (s'.memory 0)).1.toOption.isNone = true := by decide +kernel
  have hnone : ((Discovery.create "t.Item[]" [.null]).search (s'.engines 0) s'.registry (s'.memory 0)).1 = .ok none :=
    h (fun _ => .unrestricted) (fun _ => .pojo) {} es 0 ⟨20⟩ _ rfl rfl hretire [] [.null]
  rw [hnone] at herror
  cases herror

end Session

end MemberAccess
