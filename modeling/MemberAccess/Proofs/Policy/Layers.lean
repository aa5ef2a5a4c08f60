import MemberAccess.Policy

/-!
# Layers of a policy

A policy grows by layers: rule texts that are denied, and classes that are granted by name. Rules only take
away and grants only give; and while a grant shows a class again that rules had denied, it never shows a
member again that rules had denied.

* `Policy.ShowsLess`: whatever one policy shows, the other one shows.
* `Policy.extendAll`: a policy with more layers on top.
* `allowsPackage_narrow`, `showsClass_narrow`, `deniesMember_narrow`: a policy with rules denied.
* `deniesMember_extendAll`: what a policy denies of a class is denied under whatever lies on top.
* `layers_one_way`: all of this for a rule text and what follows it.
-/

namespace MemberAccess

open Rule (MemberSort PackageRule)

namespace Policy

/-- Whatever the first policy shows, the second one shows. -/
structure ShowsLess (q p : Policy) : Prop where
  package : ∀ name, q.allowsPackage name = true → p.allowsPackage name = true
  cls : ∀ d, q.allowsClass d = true → p.allowsClass d = true
  method : ∀ d m, q.allowsMethod d m = true → p.allowsMethod d m = true
  field : ∀ d f, q.allowsField d f = true → p.allowsField d f = true
  constructor : ∀ d, q.allowsConstructor d = true → p.allowsConstructor d = true

/-- The policy shows no member of that name: no field, or no method, nor the constructors when it is the name
of their class. -/
def Hides (p : Policy) (d : ClassDef) : MemberSort → String → Prop
  | .field, name => ∀ f : Field, f.name = name → p.allowsField d f = false
  | .method, name => (∀ m : Method, m.name = name → p.allowsMethod d m = false) ∧
      (name = d.name → p.allowsConstructor d = false)

/-- What can be laid on a policy. -/
inductive Layer where
  | classes (names : List String)
  | rules (text : String)

/-- The policy with one more layer. -/
def extend (p : Policy) : Layer → Except Rule.Error Policy
  | .classes names => .ok (p.withClasses names)
  | .rules text => p.compose text

/-- The policy with more layers, the first one lowest. -/
def extendAll (p : Policy) (layers : List Layer) : Except Rule.Error Policy := layers.foldlM extend p

variable {p q : Policy} {d : ClassDef} {sort : MemberSort} {name : String}

/-! ## Rules -/

theorem compose_eq_ok {text : String} :
    p.compose text = .ok q ↔ ∃ rules, Rule.readRules text = .ok rules ∧ p.narrow rules = q := by
  unfold compose
  cases Rule.readRules text with
  | error e => simp [Except.map]
  | ok rules => simp [Except.map]

theorem allowsPackage_narrow (p : Policy) (rules : List PackageRule) (name : String) :
    (p.narrow rules).allowsPackage name = (p.allowsPackage name && !rules.any (·.deniesPackage name)) := by
  cases rules with
  | nil => simp [narrow]
  | cons r rest => rfl

theorem showsClass_narrow (p : Policy) (rules : List PackageRule) (d : ClassDef) :
    (p.narrow rules).showsClass d = (p.showsClass d && !rules.any (·.deniesClass d)) := by
  cases rules with
  | nil => simp [narrow]
  | cons r rest => rfl

theorem deniesMember_narrow (p : Policy) (rules : List PackageRule) (d : ClassDef) (sort : MemberSort)
    (name : String) : (p.narrow rules).deniesMember d sort name =
      (p.deniesMember d sort name || rules.any (·.deniesMember d sort name)) := by
  cases rules with
  | nil => simp [narrow]
  | cons r rest => rfl

/-- A policy that allows fewer packages and classes and denies more members shows less. -/
theorem ShowsLess.of_classes (hpackage : ∀ name, q.allowsPackage name = true → p.allowsPackage name = true)
    (hcls : ∀ d, q.allowsClass d = true → p.allowsClass d = true)
    (hdenied : ∀ d sort name, p.deniesMember d sort name = true → q.deniesMember d sort name = true) :
    q.ShowsLess p := by
  have hmember : ∀ d sort name, (q.allowsClass d && !q.deniesMember d sort name) = true →
      (p.allowsClass d && !p.deniesMember d sort name) = true := by
    intro d sort name h
    rw [Bool.and_eq_true, Bool.not_eq_true'] at h ⊢
    refine ⟨hcls d h.1, ?_⟩
    cases hp : p.deniesMember d sort name with
    | false => rfl
    | true =>
      have hq := hdenied d sort name hp
      rw [h.2] at hq
      cases hq
  exact ⟨hpackage, hcls, fun d m => hmember d .method m.name, fun d f => hmember d .field f.name,
    fun d => hmember d .method d.name⟩

/-- The same by the classes that are shown, arrays apart. -/
theorem ShowsLess.of_layers (hpackage : ∀ name, q.allowsPackage name = true → p.allowsPackage name = true)
    (hcls : ∀ d, q.showsClass d = true → p.showsClass d = true)
    (hdenied : ∀ d sort name, p.deniesMember d sort name = true → q.deniesMember d sort name = true) :
    q.ShowsLess p := by
  refine .of_classes hpackage (fun d hd => ?_) hdenied
  -- arrays are shown in any case
  unfold allowsClass at hd ⊢
  rw [Bool.or_eq_true] at hd ⊢
  exact hd.imp_right (hcls d)

/-- **Rules only take away.** -/
theorem showsLess_narrow (p : Policy) (rules : List PackageRule) : (p.narrow rules).ShowsLess p := by
  apply ShowsLess.of_layers
  · intro name h
    rw [allowsPackage_narrow, Bool.and_eq_true] at h
    exact h.1
  · intro d h
    rw [showsClass_narrow, Bool.and_eq_true] at h
    exact h.1
  · intro d sort name h
    rw [deniesMember_narrow, h, Bool.true_or]

/-- **Grants only give.** They leave denied members denied. -/
theorem showsLess_withClasses (p : Policy) (names : List String) : p.ShowsLess (p.withClasses names) := by
  apply ShowsLess.of_layers
  · intro name h
    simp [withClasses, allowsPackage, h]
  · intro d h
    simp [withClasses, showsClass, h]
  · intro d sort name h
    exact h

/-! ## Members that stay denied -/

/-- One more layer denies what was denied. -/
theorem deniesMember_extend {layer : Layer} (h : p.deniesMember d sort name = true)
    (hq : p.extend layer = .ok q) : q.deniesMember d sort name = true := by
  cases layer with
  | classes names =>
    cases hq
    exact h
  | rules text =>
    obtain ⟨rules, -, rfl⟩ := compose_eq_ok.1 hq
    rw [deniesMember_narrow, h, Bool.true_or]

/-- **What is denied of a class stays denied** under any number of layers. -/
theorem deniesMember_extendAll {layers : List Layer} (h : p.deniesMember d sort name = true)
    (hq : p.extendAll layers = .ok q) : q.deniesMember d sort name = true := by
  induction layers generalizing p with
  | nil =>
    cases hq
    exact h
  | cons layer rest ih =>
    unfold extendAll at hq
    rw [List.foldlM_cons] at hq
    cases hnext : p.extend layer with
    | error e =>
      rw [hnext] at hq
      cases hq
    | ok next =>
      rw [hnext] at hq
      exact ih (deniesMember_extend h hnext) hq

/-- A member that is denied is hidden, whether its class is shown or not. -/
theorem hides_of_deniesMember (h : p.deniesMember d sort name = true) : p.Hides d sort name := by
  cases sort with
  | field =>
    rintro f rfl
    simp [allowsField, h]
  | method =>
    refine ⟨?_, ?_⟩
    · rintro m rfl
      simp [allowsMethod, h]
    · rintro rfl
      simp [allowsConstructor, h]

/-- **Layers only move one way.** A policy with a rule text denied shows less, and one with classes granted
shows more; and a member that the rules of the text deny stays hidden under whatever is laid on top, grants of
its own class included. -/
theorem layers_one_way (p : Policy) {text : String} {q : Policy} (hq : p.compose text = .ok q)
    (names : List String) :
    q.ShowsLess p ∧ p.ShowsLess (p.withClasses names) ∧
      ∀ rules, Rule.readRules text = .ok rules → ∀ d sort name,
        rules.any (·.deniesMember d sort name) = true →
        ∀ layers q', q.extendAll layers = .ok q' → q'.Hides d sort name := by
  obtain ⟨rules, hrules, rfl⟩ := compose_eq_ok.1 hq
  refine ⟨showsLess_narrow p rules, showsLess_withClasses p names, ?_⟩
  intro rules' hrules' d sort name hdenied layers q' hq'
  have hsame : rules' = rules := Except.ok.inj (hrules'.symm.trans hrules)
  rw [hsame] at hdenied
  have hnow : (p.narrow rules).deniesMember d sort name = true := by
    rw [deniesMember_narrow, hdenied, Bool.or_true]
  exact hides_of_deniesMember (deniesMember_extendAll hnow hq')

/-- A text that denies a method of a class. -/
def wiping : String := "app.model { Person { wipe(); } }"

/-- The method stays hidden when its class is granted by name. -/
theorem layers_one_way_wiping :
    let person : ClassDef := .ofDecl ⟨19⟩ (.ofName "app.model.Person")
    let rules : List PackageRule := [⟨"app.model", [("Person", { methods := ["wipe"] })]⟩]
    let narrowed : Policy := .narrowed .restricted rules
    let granted : Policy := narrowed.withClasses ["app.model.Person"]
    Policy.restricted.compose wiping = .ok narrowed ∧ granted.allowsClass person = true ∧
      narrowed.ShowsLess .restricted ∧ Policy.restricted.ShowsLess (withClasses .restricted ["app.model.Person"]) ∧
      granted.Hides person .method "wipe" := by
  intro person rules narrowed granted
  have hread : Rule.readRules wiping = .ok rules := by rfl
  have hcompose : Policy.restricted.compose wiping = .ok narrowed :=
    compose_eq_ok.2 ⟨rules, hread, rfl⟩
  obtain ⟨hless, hmore, hhides⟩ := layers_one_way .restricted hcompose ["app.model.Person"]
  refine ⟨hcompose, by decide +kernel, hless, hmore, ?_⟩
  exact hhides rules hread person .method "wipe" (by decide +kernel) [.classes ["app.model.Person"]] granted rfl

end Policy

end MemberAccess
