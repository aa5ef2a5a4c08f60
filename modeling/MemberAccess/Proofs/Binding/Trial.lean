import MemberAccess.Proofs.Binding.Property
import MemberAccess.Proofs.Evaluation

/-!
# Bindings that are tried

A binding that is there already is **tried** before anything is searched for: with a target and a property, and a value
or arguments. It is bound to a class and, by its family, to a name, to a key, to a type of keys, to numbers, or to the
signature of a call. A trial that does not answer to this calls nothing. One that does leads to the access of the
binding, if the binding takes the value.

* `Trial`, `Binding.replay?`, `Binding.tryInvoke`: a trial, the access that it comes to, and what is done.
* `ReadRoute.Answers`, `WriteRoute.Answers`, `WriteRoute.Accepts`: what each family asks of a property and of a value.
* `ReadRoute.replay?_eq_none_iff`, `WriteRoute.replay?_eq_none_iff`: the access depends on that alone.
* `Binding.Misses`: a trial with another class, another property or another signature, or with null.
* `Binding.replay?_of_misses`: such a trial calls nothing.
* `ReadRoute.Found.answers`, `WriteRoute.Found.answers`: what is found answers to the property that it was found for.
-/

namespace MemberAccess

/-! ## Trials -/

/-- What a binding is tried with. -/
inductive Trial where
  | read (target key : Value)
  | write (target key v : Value)
  | call (target : Value) (name : String) (args : List Value)
  | create (name : String) (args : List Value)

/-- A constructor is called without a target. -/
def Trial.target? : Trial → Option Value
  | read target _ | write target _ _ | call target _ _ => some target
  | create .. => none

namespace Binding

/-- The access that a trial comes to. -/
def replay? : Binding → Trial → Option Access
  | reader b, .read target key => b.replay? target key
  | writer b, .write target key v => b.replay? target key v
  | caller b, .call target name args => b.replay? target name args
  | creator b, .create name args => b.replay? name args
  | _, _ => none

/-- What a trial does. A binding is tried with what its sort is for, and anything else is nothing to it. -/
def tryInvoke : Binding → Trial → Run Outcome
  | reader b, .read target key => b.tryInvoke target key
  | writer b, .write target key v => b.tryInvoke target key v
  | caller b, .call target name args => b.tryInvoke target name args
  | creator b, .create name args => b.tryInvoke name args
  | _, _ => pure .stale

theorem tryInvoke_eq (b : Binding) (t : Trial) : b.tryInvoke t = attemptIf (b.replay? t) := by
  cases b <;> cases t <;> rfl

end Binding

/-- **An access that is attempted** is run, unless a field refuses. -/
theorem Access.attempt_cases (a : Access) (h : Heap) :
    a.attempt h = ((a.run h).1.map .done, (a.run h).2) ∨
    ∃ f what, a.member? = some (.field f) ∧ (a.host h).1 = .error (.fault (.illegalAccess what)) := by
  by_cases hstale : (a.attempt h).1 = .ok .stale
  · obtain ⟨hmay, what, hrefused⟩ := refused_of_stale hstale
    right
    cases a with
    | readField f | writeField f => exact ⟨f, what, rfl, hrefused⟩
    | call | store | readElement | writeElement | create => cases hmay
  · left
    unfold attempt at hstale ⊢
    rw [run_apply]
    rcases hhost : a.host h with ⟨halt | v, h'⟩ <;> rw [hhost] at hstale
    · simp only at hstale ⊢
      split
      · rename_i hmay
        rw [hmay] at hstale
        exact absurd rfl hstale
      · rfl
    · rfl

/-! ## What a binding answers to -/

/-- A value that is a number, and can be cut to an index. -/
def Value.IsNumber : Value → Prop
  | byte _ | short _ | int _ | long _ | float _ | double _ => True
  | null | bool _ | char _ | string _ | array _ | object _ => False

theorem Value.toIndex?_eq_none_iff {v : Value} : v.toIndex? = none ↔ ¬v.IsNumber := by
  cases v <;> simp [toIndex?, IsNumber]

theorem Value.isNumber_of_toIndex? {v : Value} {i : Int32} (h : v.toIndex? = some i) : v.IsNumber := by
  by_contra hno
  rw [toIndex?_eq_none_iff.2 hno] at h
  cases h

/-- A reader answers to a property: to the name that it is bound to, to the key, to keys of one type, or to numbers. -/
def ReadRoute.Answers (key : Value) : ReadRoute → Prop
  | .field f => key.propertyName? = some f.name
  | .map _ bound => key.type = bound.type
  | .list .. => key.IsNumber
  | .getter _ name | .flag _ name => key.propertyName? = some name
  | .duck _ bound _ => key = bound

/-- A writer answers to a property. -/
def WriteRoute.Answers (key : Value) : WriteRoute → Prop
  | .field f => key.propertyName? = some f.name
  | .map _ bound => key.type = bound.type
  | .list .. => key.IsNumber
  | .setter _ name _ => key.propertyName? = some name
  | .duck _ bound _ => key = bound

/-- A writer takes a value, when it looks at values. -/
def WriteRoute.Accepts (v : Value) : WriteRoute → Prop
  | .field f => f.type.plainlyTakes v = true
  | .setter m _ type => setterTakes type m.params v = true
  | .duck m _ type => duckTakes type m.params v = true
  | .map .. | .list .. => True

theorem ReadRoute.replay?_eq_none_iff (route : ReadRoute) (target key : Value) :
    route.replay? target key = none ↔ ¬route.Answers key := by
  cases route with
  | map m bound => simp [replay?, Answers, eq_comm]
  | list source index => simp [replay?, Answers, Value.toIndex?_eq_none_iff]
  | field | getter | flag | duck => simp [replay?, Answers]

theorem WriteRoute.replay?_eq_none_iff (route : WriteRoute) (target key v : Value) :
    route.replay? target key v = none ↔ ¬(route.Answers key ∧ route.Accepts v) := by
  cases route with
  | map m bound => simp [replay?, Answers, Accepts, eq_comm]
  | list source index => simp [replay?, Answers, Accepts, Value.toIndex?_eq_none_iff]
  | field | setter | duck => simp [replay?, Answers, Accepts]

/-- A trial that a binding is not for. -/
inductive Binding.Misses : Binding → Trial → Prop
  /-- null, or an instance of another class, be it one below -/
  | target {b t v} (ht : t.target? = some v) (hv : v = .null ∨ v.cls ≠ b.cls) : Misses b t
  | read {b target key} (hkey : ¬b.route.Answers key) : Misses (.reader b) (.read target key)
  | write {b target key v} (hkey : ¬b.route.Answers key) : Misses (.writer b) (.write target key v)
  | call {b target name args} (hcall : Signature.ofArgs name args ≠ b.signature) :
      Misses (.caller b) (.call target name args)
  | create {b name args} (hcall : Signature.ofArgs name args ≠ b.signature) : Misses (.creator b) (.create name args)

/-- An overload that is called again: the target is of its class and not null, and the call is of its signature. -/
theorem Caller.of_replay? {b : Caller} {target : Value} {name : String} {args : List Value} {a : Access}
    (h : b.replay? target name args = some a) :
    target.isNull = false ∧ target.cls = b.cls ∧ Signature.ofArgs name args = b.signature := by
  unfold replay? at h
  split at h
  · assumption
  · cases h

/-- What is tried is an instance of the class, and null only where a binding goes through a field. -/
theorem Binding.target_of_replay? {b : Binding} {t : Trial} {a : Access} {v : Value} (h : b.replay? t = some a)
    (ht : t.target? = some v) : v.cls = b.cls ∧ (v.isNull = true → ∃ f, b.member? = some (.field f)) := by
  cases t with
  | create => cases ht
  | read target key =>
    cases ht
    cases b with
    | reader b =>
      obtain ⟨hcls, hfamily, -⟩ := Reader.of_replay? h
      exact ⟨hcls, fun hnull => ReadRoute.member?_of_family (hfamily hnull)⟩
    | writer | caller | creator => cases h
  | write target key w =>
    cases ht
    cases b with
    | writer b =>
      obtain ⟨hcls, hfamily, -⟩ := Writer.of_replay? h
      exact ⟨hcls, fun hnull => WriteRoute.member?_of_family (hfamily hnull)⟩
    | reader | caller | creator => cases h
  | call target name args =>
    cases ht
    cases b with
    | caller b =>
      obtain ⟨hnull, hcls, -⟩ := Caller.of_replay? h
      exact ⟨hcls, fun hnull' => by rw [hnull] at hnull'; cases hnull'⟩
    | reader | writer | creator => cases h

/-- **A trial that a binding is not for comes to no access.** Null passes for an instance of the root class where a
binding goes through a field, so no such binding may serve the root class. -/
theorem Binding.replay?_of_misses {b : Binding} {t : Trial}
    (hroot : ∀ f, b.member? = some (.field f) → b.cls ≠ .object) (h : b.Misses t) : b.replay? t = none := by
  rw [Option.eq_none_iff_forall_ne_some]
  intro a ha
  cases h with
  | target ht hv =>
    obtain ⟨hcls, hfield⟩ := target_of_replay? ha ht
    rcases hv with rfl | hv
    · obtain ⟨f, hf⟩ := hfield rfl
      exact hroot f hf hcls.symm
    · exact hv hcls
  | read hkey =>
    have hroute := (Reader.of_replay? ha).2.2
    rw [(ReadRoute.replay?_eq_none_iff _ _ _).2 hkey] at hroute
    cases hroute
  | write hkey =>
    have hroute := (Writer.of_replay? ha).2.2
    rw [(WriteRoute.replay?_eq_none_iff _ _ _ _).2 fun h => hkey h.1] at hroute
    cases hroute
  | call hcall => exact hcall (Caller.of_replay? ha).2.2
  | create hcall =>
    rw [replay?, Creator.replay?, if_neg hcall] at ha
    cases ha

/-! ## What is found answers -/

section Found

variable {I : Introspector → Prop} {r : Registry} {c : ClassId}

/-- **A reader that is found** answers to the property that it was looked for with. -/
theorem ReadRoute.Found.answers {key : Value} {route : ReadRoute} (h : route.Found I r c key) : route.Answers key := by
  cases h with
  | field hname h => exact hname.trans (congrArg some h.name.symm)
  | map | duck => rfl
  | list hindex => exact Value.isNumber_of_toIndex? hindex
  | getter hname | flag hname => exact hname

/-- **A writer that is found** answers to the property that it was looked for with. -/
theorem WriteRoute.Found.answers {key v : Value} {route : WriteRoute} (h : route.Found I r c key v) :
    route.Answers key := by
  cases h with
  | field hname h => exact hname.trans (congrArg some h.name.symm)
  | map | duck => rfl
  | list hindex => exact Value.isNumber_of_toIndex? hindex
  | setter hname => exact hname

end Found

end MemberAccess
