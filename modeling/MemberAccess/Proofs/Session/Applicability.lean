import Mathlib.Data.List.Forall2
import MemberAccess.Proofs.Binding.Property
import MemberAccess.Proofs.Introspection.Grounding
import MemberAccess.Proofs.Registry.Rooted
import MemberAccess.Proofs.Session

/-!
# What writers hand to host code

A writer that is used again checks the property and the value against what it was found for, but not every
family checks the value: writers to maps and lists pass on any value, and those through a method for a key
and a value any that stands for a reference. Everything else that is handed over fits its declared type.

* `Access.Applicable`: every argument of an access fits the type that is declared for it.
* `WriteRoute.unchecked?`: the declared type of what a writer passes on without a check.
* `WriteRoute.applicable_iff`: what a writer that is used again hands over fits exactly if that does.
* `Session.replay_applicable_iff`: the same for every writer that an engine finds, at any later time.
-/

namespace MemberAccess

variable {r r' : Registry}

/-- Each argument can be passed to the parameter at its position, and there are no others. -/
def Method.Takes (r : Registry) (m : Method) (types : List Ty) : Prop :=
  List.Forall₂ (fun formal actual => (conversionCost r formal actual).isSome = true) m.params types

/-- Every argument that the access hands to host code fits the type that is declared for it. -/
def Access.Applicable (r : Registry) : Access → Prop
  | call m _ args | store m _ args _ => m.Takes r (args.map (·.type))
  | writeField f _ v => (conversionCost r f.type v.type).isSome = true
  | create c _ args =>
    List.Forall₂ (fun formal actual => (conversionCost r formal actual).isSome = true) c.params (args.map (·.type))
  | readField .. | readElement .. | writeElement .. => True

/-- The declared type of the value that a writer passes on without a check, if there is one. -/
def WriteRoute.unchecked? : WriteRoute → Option Ty
  | map m _ | list (.list m) _ => m.params[1]?
  | duck m _ _ => m.params[1]?.filter (!·.isPrimitive)
  | field _ | list .array _ | setter .. => none

/-! ## Values that fit -/

theorem forall₂_of_callCost {formals actuals : List Ty} (h : (callCost r formals actuals).isSome = true) :
    List.Forall₂ (fun formal actual => (conversionCost r formal actual).isSome = true) formals actuals := by
  induction formals generalizing actuals with
  | nil =>
    cases actuals with
    | nil => exact .nil
    | cons => cases h
  | cons formal formals ih =>
    cases actuals with
    | nil => cases h
    | cons actual actuals =>
      rw [isSome_callCost_cons, Bool.and_eq_true] at h
      exact .cons h.1 (ih h.2)

theorem Method.Takes.growsTo (hp : r.Proper) (hr : r.GrowsTo r') {m : Method} {types : List Ty}
    (h : m.Takes r types) : m.Takes r' types := by
  refine List.Forall₂.imp ?_ h
  intro formal actual hcost
  obtain ⟨cost, hcost⟩ := Option.isSome_iff_exists.1 hcost
  rw [conversionCost_some_growsTo hp hr hcost]
  rfl

/-- Null fits every type that is not primitive. -/
theorem conversionCost_null {formal : Ty} (h : formal.isPrimitive = false) :
    (conversionCost r formal .null).isSome = true := by
  simp [conversionCost, h]

/-- A value fits its own class, and the primitive that this class boxes. -/
theorem conversionCost_same {formal actual : Ty} (hnull : actual ≠ .null)
    (h : formal.normalized = actual.normalized) : (conversionCost r formal actual).isSome = true := by
  simp [conversionCost, hnull, h]

/-- A value that a field plainly takes fits its type. -/
theorem Ty.plainlyTakes_fits (hp : r.Proper) (hinit : Registry.initial.GrowsTo r) {declared : Ty} {v : Value}
    (hv : v.type.KnownTo r) (h : declared.plainlyTakes v = true) :
    (conversionCost r declared v.type).isSome = true := by
  unfold plainlyTakes at h
  by_cases hnull : v = .null
  · subst hnull
    exact conversionCost_null (by simpa [Value.isNull] using h)
  have hisNull : v.isNull = false := by cases v <;> simp_all [Value.isNull]
  have htype : v.type = .ofClass v.cls := by cases v <;> simp_all [Value.type]
  have hne : v.type ≠ .null := by rw [htype]; exact nofun
  rw [hisNull] at h
  simp only [Bool.false_eq_true, if_false] at h
  split at h
  · -- a primitive, and a value of one that widens to it
    rename_i p actual hactual
    have hprimitive : v.type.primitive? = some actual := by
      simp only [Value.primitive?, hisNull, Bool.false_eq_true, if_false] at hactual
      rw [htype]
      exact hactual
    by_cases hsame : (Ty.primitive p).normalized = v.type.normalized
    · exact conversionCost_same hne hsame
    · simp only [conversionCost, hne, hsame, if_false, hprimitive]
      exact h
  · cases h
  · simp only [Bool.or_eq_true, decide_eq_true_eq] at h
    rcases h with h | rfl
    · exact conversionCost_same hne (by rw [h, htype]; rfl)
    · -- the root takes everything
      by_cases hsame : Ty.object.normalized = v.type.normalized
      · exact conversionCost_same hne hsame
      · have hroot := Registry.isAssignable_object hp hinit (hv v.cls (by rw [htype]; rfl))
        rw [htype] at hne hsame ⊢
        have hnone : Ty.object.primitive? = none := by decide
        simp only [conversionCost, hne, hsame, if_false, hnone]
        simpa [Ty.object, Ty.isPrimitive, Ty.cls?, Registry.isAssignable] using hroot

/-! ## Writers that are used again -/

namespace WriteRoute

theorem BoundTo.imp {good good' : Method → List Ty → Prop} (hgood : ∀ m types, good m types → good' m types)
    {route : WriteRoute} {key : Value} {type : Ty} (h : route.BoundTo good key type) :
    route.BoundTo good' key type := by
  cases route with
  | field => trivial
  | map => exact ⟨h.1, hgood _ _ h.2⟩
  | list source =>
    cases source with
    | array => exact h
    | list => exact ⟨h.1, hgood _ _ h.2⟩
  | setter => exact ⟨h.1, hgood _ _ h.2⟩
  | duck => exact ⟨h.1, h.2.1, hgood _ _ h.2.2⟩

/-- A setter is called only with what it takes. -/
theorem setterTakes_fits {m : Method} {type : Ty} {v : Value} (h : m.Takes r [type])
    (hv : setterTakes type m.params v = true) : m.Takes r [v.type] := by
  unfold Method.Takes at h ⊢
  unfold setterTakes at hv
  cases hparams : m.params with
  | nil => rw [hparams] at h; cases h
  | cons p rest =>
    rw [hparams] at h hv
    obtain ⟨hp, hrest⟩ := List.forall₂_cons.1 h
    refine .cons ?_ hrest
    simp only at hv
    split at hv
    · rename_i hnull
      cases v with
      | null => exact conversionCost_null (by simpa using hv)
      | _ => cases hnull
    · rename_i hnull
      have hne : v.type ≠ .null := by cases v <;> simp_all [Value.type, Value.isNull]
      simp only [Bool.or_eq_true, decide_eq_true_eq] at hv
      rcases hv with rfl | hv
      · exact hp
      · exact conversionCost_same hne (by rw [← hv, Ty.normalized_normalized])

/-- The two parameters of a method that takes a key and a value. -/
theorem takes_pair {m : Method} {first second : Ty} (h : m.Takes r [first, second]) :
    ∃ p q, m.params = [p, q] ∧ (conversionCost r p first).isSome = true ∧
      (conversionCost r q second).isSome = true := by
  unfold Method.Takes at h
  cases hparams : m.params with
  | nil => rw [hparams] at h; cases h
  | cons p rest =>
    rw [hparams] at h
    obtain ⟨hfirst, hrest⟩ := List.forall₂_cons.1 h
    cases rest with
    | nil => cases hrest
    | cons q others =>
      obtain ⟨hsecond, hothers⟩ := List.forall₂_cons.1 hrest
      cases hothers
      exact ⟨p, q, rfl, hfirst, hsecond⟩

/-- A method that takes a first argument takes a second one with it if that fits. -/
theorem takes_pair_iff {m : Method} {first : Ty} {p q : Ty} (hparams : m.params = [p, q])
    (hfirst : (conversionCost r p first).isSome = true) (second : Ty) :
    m.Takes r [first, second] ↔ (conversionCost r q second).isSome = true := by
  unfold Method.Takes
  rw [hparams]
  simp [hfirst]

/-- A method for a key and a value is called with a primitive only when that is what it takes. -/
theorem duckTakes_fits {m : Method} {p q : Ty} {type : Ty} {v : Value} (hparams : m.params = [p, q])
    (hsecond : (conversionCost r q type).isSome = true) (hq : q.isPrimitive = true)
    (hv : duckTakes type m.params v = true) : (conversionCost r q v.type).isSome = true := by
  unfold duckTakes at hv
  simp only [hparams, List.getElem?_cons_succ, List.getElem?_cons_zero, hq, if_true] at hv
  split at hv
  · rename_i hsame
    rw [Bool.and_eq_true, decide_eq_true_eq] at hsame
    rw [hsame.2]
    exact hsecond
  · -- the value is of the very primitive
    cases q with
    | ofClass | null => cases hq
    | primitive own =>
      have hown : v.primitive? = some own := of_decide_eq_true hv
      unfold Value.primitive? at hown
      split at hown
      · cases hown
      · rename_i hnull
        have hboxed : own.boxed = v.cls := by simpa using List.find?_some hown
        cases v with
        | null => exact absurd rfl hnull
        | _ => exact conversionCost_same nofun (congrArg Ty.ofClass hboxed)

/-- **What a writer that is used again hands over** fits what is declared, exactly if the value does where
the writer does not check it. -/
theorem applicable_iff (hp : r.Proper) (hinit : Registry.initial.GrowsTo r) {route : WriteRoute}
    {key target key' v : Value} {type : Ty} {a : Access} (h : route.BoundTo (·.Takes r) key type)
    (hv : v.type.KnownTo r) (ha : route.replay? target key' v = some a) :
    a.Applicable r ↔ ∀ t ∈ route.unchecked?, (conversionCost r t v.type).isSome = true := by
  cases route with
  | field f =>
    simp only [replay?] at ha
    split at ha
    · rename_i hmatch
      cases ha
      simpa [unchecked?, access, Access.Applicable] using Ty.plainlyTakes_fits hp hinit hv hmatch.2
    · cases ha
  | map m bound =>
    obtain ⟨rfl, htakes⟩ := h
    obtain ⟨p, q, hparams, hfirst, -⟩ := takes_pair htakes
    simp only [replay?] at ha
    split at ha
    · rename_i htype
      cases ha
      rw [htype] at hfirst
      simp only [Access.Applicable, unchecked?, hparams]
      simpa using takes_pair_iff hparams hfirst v.type
    · cases ha
  | list source index =>
    obtain ⟨i, -, rfl⟩ := Option.map_eq_some_iff.1 ha
    cases source with
    | array => simp [unchecked?, access, Access.Applicable]
    | list m =>
      obtain ⟨p, q, hparams, hfirst, -⟩ := takes_pair h.2
      -- indices are ints, whatever they are computed from
      have hiff : m.Takes r [(Value.int i).type, v.type] ↔ _ := takes_pair_iff hparams hfirst v.type
      simp only [access, Access.Applicable, unchecked?, hparams]
      simpa using hiff
  | setter m name bound =>
    obtain ⟨rfl, htakes⟩ := h
    simp only [replay?] at ha
    split at ha
    · rename_i hmatch
      cases ha
      simp only [access, Access.Applicable, unchecked?]
      simpa using setterTakes_fits htakes hmatch.2
    · cases ha
  | duck m bound type =>
    obtain ⟨rfl, rfl, htakes⟩ := h
    obtain ⟨p, q, hparams, hfirst, hsecond⟩ := takes_pair htakes
    simp only [replay?] at ha
    split at ha
    · rename_i hmatch
      obtain ⟨rfl, hduck⟩ := hmatch
      cases ha
      simp only [access, Access.Applicable, unchecked?, hparams]
      rw [List.map_cons, List.map_cons, List.map_nil, takes_pair_iff hparams hfirst v.type]
      cases hq : q.isPrimitive with
      | false => simp [hq]
      | true => simpa [hq] using duckTakes_fits hparams hsecond hq hduck
    · cases ha

end WriteRoute

namespace Session

/-- **Writers hand over what fits, where they check it**: take any writer that an engine finds in any run, in
the order of a style or any other one. Whenever it applies to a target, a property and a value later on,
every argument of its access can be passed to the type declared for it, if and only if the value can be
passed where the writer does not check it: as the second argument of a method of a map or a list, or as a
reference to a method that takes a key and a value. -/
theorem replay_applicable_iff (policy : Nat → Policy) (strategy : Nat → Strategy) (heap : Heap)
    (before after : List Event) (i : Nat) (order : SearchOrder) (target key v : Value) (b : Writer) :
    let s := (start policy strategy heap).run before
    let later := (s.run after).registry
    (Resolver.firstWriter (order.of (s.engines i) s.registry target) s.registry target key v (s.memory i)).1 =
        .ok (some b) →
      ∀ target' key' v' a, v'.type.KnownTo later → b.replay? target' key' v' = some a →
        (a.Applicable later ↔ ∀ t ∈ b.route.unchecked?, (conversionCost later t v'.type).isSome = true) := by
  intro s later hfound target' key' v' a hv ha
  have hs := grounded_run policy strategy heap before i
  obtain ⟨hp', hinit', -⟩ := invariant_grounded.run hs after
  obtain ⟨hp, -, hk⟩ := hs
  -- searches keep memories grounded, and what a grounded memory answers can be called
  have hkept : Introspector.KeptByQueries s.registry (·.Grounded s.registry) :=
    Introspector.keptByQueries_of_touch fun t h => Introspector.grounded_touch h t
  have hgood : Introspector.FindsGood (·.Grounded s.registry) s.registry fun m types => m.Takes s.registry types :=
    fun hk hm => forall₂_of_callCost (hk.findMethod hm)
  have hbound := (Resolver.boundTo_firstWriter hkept hgood (order.of (s.engines i) s.registry target) target key v
    (s.memory i) hk).2.1 _ hfound b rfl
  have hbound' : b.route.BoundTo (fun m types => m.Takes later types) key v.type :=
    hbound.imp fun m types h => h.growsTo hp (growsTo_run s after)
  exact WriteRoute.applicable_iff hp' hinit' hbound' hv (Writer.of_replay? ha).2.2

/-- A class with a method for a text and a text. -/
def bag : ClassDecl := (ClassDecl.ofName "t.Bag").method "set" [.string, .string] .object .answersNull

/-- The session in which that class has been registered. -/
def bagged : Session := (start (fun _ => .unrestricted) (fun _ => .pojo) {}).run [.change (.register bag)]

def aBag : Value := .object ⟨0, ⟨19⟩⟩

/-- What is found for writing a text. -/
def bagWriter : Writer :=
  ⟨⟨19⟩, .duck ⟨⟨"set", [.string, .string], .object, .shown, .answersNull⟩, ⟨⟨19⟩, 0⟩⟩ (.string "a") .string⟩

theorem bagWriter_found :
    (Resolver.firstWriter (SearchOrder.of (bagged.engines 0) bagged.registry aBag (.style .dot)) bagged.registry
      aBag (.string "a") (.string "x") (bagged.memory 0)).1 = .ok (some bagWriter) := rfl

theorem replay_applicable_iff_bag :
    (Resolver.firstWriter (SearchOrder.of (bagged.engines 0) bagged.registry aBag (.style .dot)) bagged.registry
        aBag (.string "a") (.string "x") (bagged.memory 0)).1 = .ok (some bagWriter) ∧
      ((bagWriter.access aBag (.string "y")).Applicable (bagged.run []).registry ↔
        ∀ t ∈ bagWriter.route.unchecked?,
          (conversionCost (bagged.run []).registry t (Value.string "y").type).isSome = true) :=
  ⟨bagWriter_found, replay_applicable_iff _ _ _ [.change (.register bag)] [] 0 (.style .dot) aBag (.string "a")
    (.string "x") bagWriter bagWriter_found aBag (.string "a") (.string "y") _ (by decide +kernel) rfl⟩

/-- A writer does not only hand over what fits: one that was found for a text passes an int to a parameter
for texts. -/
theorem not_replay_applicable :
    ¬ ∀ (policy : Nat → Policy) (strategy : Nat → Strategy) (heap : Heap) (before after : List Event) (i : Nat)
        (order : SearchOrder) (target key v : Value) (b : Writer),
      let s := (start policy strategy heap).run before
      let later := (s.run after).registry
      (Resolver.firstWriter (order.of (s.engines i) s.registry target) s.registry target key v (s.memory i)).1 =
          .ok (some b) →
        ∀ target' key' v' a, v'.type.KnownTo later → b.replay? target' key' v' = some a →
          a.Applicable later := by
  intro h
  have happlicable := h (fun _ => .unrestricted) (fun _ => .pojo) {} [.change (.register bag)] [] 0 (.style .dot)
    aBag (.string "a") (.string "x") bagWriter bagWriter_found aBag (.string "a") (.int 1)
    (bagWriter.access aBag (.int 1)) (by decide +kernel) rfl
  -- both parameters are texts, and an int is not one
  cases happlicable with
  | cons _ hrest =>
    cases hrest with
    | cons hcost _ =>
      revert hcost
      decide +kernel

end Session

end MemberAccess
