import MemberAccess.Proofs.Rule.Insertion

/-!
# Rules put together

Rule texts can be denied one after the other, in any order, or as one text with a line for each. All of this comes to
the same, because a policy asks its rules one by one, and nothing but what they deny counts.

* `Rule.Denial`: the least things that rules deny, and `Rule.any_deniesClass_iff` with its likes: rules deny what some
  denial among them hits.
* `Policy.Agrees`: two policies give the same answers.
* `Policy.narrowAll`: a policy with several texts denied; `agrees_narrowAll`: what they deny together is all that
  counts.
* `Rule.readRules_append`: the rules of two texts, one below the other.
* `Policy.compose_append`: all ways to put two texts together.
-/

namespace MemberAccess

namespace Rule

/-- The least things that rules deny, in the packages that a pattern covers: these packages, a class in them, or the
members of one sort and name of such a class. -/
inductive Denial where
  | package (pattern : String)
  | cls (pattern name : String)
  | member (pattern owner : String) (sort : MemberSort) (name : String)

/-- A rule consists of denials. -/
def PackageRule.Denies (r : PackageRule) : Denial → Prop
  | .package pattern => r.pattern = pattern ∧ r.deniesAll = true
  | .cls pattern name => r.pattern = pattern ∧ ∃ c, Assoc.get? name r.classes = some c ∧ c.deniesAll = true
  | .member pattern owner sort name =>
    r.pattern = pattern ∧ ∃ c, Assoc.get? owner r.classes = some c ∧ c.denies sort name = true

/-- Some rule denies it. -/
def Denied (rules : List PackageRule) (x : Denial) : Prop := ∃ r ∈ rules, r.Denies x

namespace Denial

/-- A denial of packages, and this is one of them. -/
def HitsPackage (package : String) : Denial → Prop
  | .package pattern => Rule.covers pattern.toList package.toList = true
  | _ => False

/-- A denial of a class, or of the package that it lies in. -/
def HitsClass (d : ClassDef) : Denial → Prop
  | .package pattern => Rule.covers pattern.toList d.package.toList = true
  | .cls pattern name => Rule.covers pattern.toList d.package.toList = true ∧ name = d.name
  | .member .. => False

def HitsMember (d : ClassDef) (sort : MemberSort) (name : String) : Denial → Prop
  | .member pattern owner sort' name' =>
    Rule.covers pattern.toList d.package.toList = true ∧ owner = d.name ∧ sort' = sort ∧ name' = name
  | _ => False

end Denial

variable {r : PackageRule} {rules : List PackageRule} {d : ClassDef} {sort : MemberSort} {name package : String}

theorem deniesPackage_iff : r.deniesPackage package = true ↔ ∃ x, r.Denies x ∧ x.HitsPackage package := by
  unfold PackageRule.deniesPackage
  rw [Bool.and_eq_true]
  constructor
  · rintro ⟨hall, hcovers⟩
    exact ⟨.package r.pattern, ⟨rfl, hall⟩, hcovers⟩
  · rintro ⟨x, hx, hhits⟩
    cases x with
    | package pattern =>
      obtain ⟨rfl, hall⟩ := hx
      exact ⟨hall, hhits⟩
    | cls | member => exact hhits.elim

theorem deniesClass_iff : r.deniesClass d = true ↔ ∃ x, r.Denies x ∧ x.HitsClass d := by
  have hentry : ((Assoc.get? d.name r.classes).map (·.deniesAll)).getD false = true ↔
      ∃ c, Assoc.get? d.name r.classes = some c ∧ c.deniesAll = true := by
    cases Assoc.get? d.name r.classes <;> simp
  unfold PackageRule.deniesClass
  rw [Bool.and_eq_true, Bool.or_eq_true, hentry]
  constructor
  · rintro ⟨hcovers, hall | hclass⟩
    · exact ⟨.package r.pattern, ⟨rfl, hall⟩, hcovers⟩
    · exact ⟨.cls r.pattern d.name, ⟨rfl, hclass⟩, hcovers, rfl⟩
  · rintro ⟨x, hx, hhits⟩
    cases x with
    | package pattern =>
      obtain ⟨rfl, hall⟩ := hx
      exact ⟨hhits, .inl hall⟩
    | cls pattern name =>
      obtain ⟨rfl, hclass⟩ := hx
      obtain ⟨hcovers, rfl⟩ := hhits
      exact ⟨hcovers, .inr hclass⟩
    | member => exact hhits.elim

theorem deniesMember_iff :
    r.deniesMember d sort name = true ↔ ∃ x, r.Denies x ∧ x.HitsMember d sort name := by
  have hentry : ((Assoc.get? d.name r.classes).map (·.denies sort name)).getD false = true ↔
      ∃ c, Assoc.get? d.name r.classes = some c ∧ c.denies sort name = true := by
    cases Assoc.get? d.name r.classes <;> simp
  unfold PackageRule.deniesMember
  rw [Bool.and_eq_true, hentry]
  constructor
  · rintro ⟨hcovers, hmember⟩
    exact ⟨.member r.pattern d.name sort name, ⟨rfl, hmember⟩, hcovers, rfl, rfl, rfl⟩
  · rintro ⟨x, hx, hhits⟩
    cases x with
    | package | cls => exact hhits.elim
    | member pattern owner sort' name' =>
      obtain ⟨rfl, hmember⟩ := hx
      obtain ⟨hcovers, rfl, rfl, rfl⟩ := hhits
      exact ⟨hcovers, hmember⟩

/-- What rules say of something is what their denials do. -/
theorem any_iff_denied {f : PackageRule → Bool} {Hits : Denial → Prop}
    (hf : ∀ r, f r = true ↔ ∃ x, r.Denies x ∧ Hits x) : rules.any f = true ↔ ∃ x, Denied rules x ∧ Hits x := by
  rw [List.any_eq_true]
  constructor
  · rintro ⟨r, hr, hdenies⟩
    obtain ⟨x, hx, hhits⟩ := (hf r).1 hdenies
    exact ⟨x, ⟨r, hr, hx⟩, hhits⟩
  · rintro ⟨x, ⟨r, hr, hx⟩, hhits⟩
    exact ⟨r, hr, (hf r).2 ⟨x, hx, hhits⟩⟩

/-- Rules that deny the same say the same. -/
theorem any_congr_denied {f : PackageRule → Bool} {Hits : Denial → Prop} {rules' : List PackageRule}
    (hf : ∀ r, f r = true ↔ ∃ x, r.Denies x ∧ Hits x) (h : ∀ x, Denied rules x ↔ Denied rules' x) :
    rules.any f = rules'.any f := by
  rw [Bool.eq_iff_iff, any_iff_denied hf, any_iff_denied hf]
  simp only [h]

/-- **The rules of two texts**, one below the other, are those of the first and those of the second. -/
theorem readRules_append {text text' : String} {rules' : List PackageRule} (h : readRules text = .ok rules)
    (h' : readRules text' = .ok rules') : readRules (text ++ "\n" ++ text') = .ok (rules ++ rules') := by
  obtain ⟨blocks, hblocks, rfl⟩ := readRules_eq_ok_iff.1 h
  obtain ⟨blocks', hblocks', rfl⟩ := readRules_eq_ok_iff.1 h'
  refine readRules_eq_ok_iff.2 ⟨blocks ++ blocks', ?_, (List.map_append ..).symm⟩
  have hlines : (text ++ "\n" ++ text').toList = text.toList ++ '\n' :: text'.toList := by
    simp [String.toList_append]
  unfold Derives at hblocks hblocks' ⊢
  rw [hlines, List.flatMap_append]
  exact hblocks.append_line hblocks'

end Rule

namespace Policy

open Rule (Denied MemberSort PackageRule)

/-- Two policies give the same answers. -/
structure Agrees (p q : Policy) : Prop where
  package : ∀ name, p.allowsPackage name = q.allowsPackage name
  cls : ∀ d, p.allowsClass d = q.allowsClass d
  method : ∀ d m, p.allowsMethod d m = q.allowsMethod d m
  field : ∀ d f, p.allowsField d f = q.allowsField d f
  constructor : ∀ d, p.allowsConstructor d = q.allowsConstructor d

/-- The policy with the rules of several texts denied, the first one lowest. -/
def narrowAll (p : Policy) (texts : List (List PackageRule)) : Policy := texts.foldl narrow p

variable {p q : Policy} {texts texts' : List (List PackageRule)}

/-- Policies agree when they show the same packages and classes and deny the same members. -/
theorem Agrees.of_layers (hpackage : ∀ name, p.allowsPackage name = q.allowsPackage name)
    (hcls : ∀ d, p.showsClass d = q.showsClass d)
    (hmember : ∀ d sort name, p.deniesMember d sort name = q.deniesMember d sort name) : p.Agrees q := by
  have hshown : ∀ d, p.allowsClass d = q.allowsClass d := by
    intro d
    unfold allowsClass
    rw [hcls]
  refine ⟨hpackage, hshown, fun d m => ?_, fun d f => ?_, fun d => ?_⟩
  · unfold allowsMethod
    rw [hshown, hmember]
  · unfold allowsField
    rw [hshown, hmember]
  · unfold allowsConstructor
    rw [hshown, hmember]

/-! ## Several texts -/

theorem allowsPackage_narrowAll (p : Policy) (texts : List (List PackageRule)) (name : String) :
    (p.narrowAll texts).allowsPackage name =
      (p.allowsPackage name && !texts.flatten.any (·.deniesPackage name)) := by
  induction texts generalizing p with
  | nil => simp [narrowAll]
  | cons rules rest ih =>
    have hstep : p.narrowAll (rules :: rest) = (p.narrow rules).narrowAll rest := rfl
    rw [hstep, ih, allowsPackage_narrow, List.flatten_cons, List.any_append, Bool.not_or, Bool.and_assoc]

theorem showsClass_narrowAll (p : Policy) (texts : List (List PackageRule)) (d : ClassDef) :
    (p.narrowAll texts).showsClass d = (p.showsClass d && !texts.flatten.any (·.deniesClass d)) := by
  induction texts generalizing p with
  | nil => simp [narrowAll]
  | cons rules rest ih =>
    have hstep : p.narrowAll (rules :: rest) = (p.narrow rules).narrowAll rest := rfl
    rw [hstep, ih, showsClass_narrow, List.flatten_cons, List.any_append, Bool.not_or, Bool.and_assoc]

theorem deniesMember_narrowAll (p : Policy) (texts : List (List PackageRule)) (d : ClassDef) (sort : MemberSort)
    (name : String) : (p.narrowAll texts).deniesMember d sort name =
      (p.deniesMember d sort name || texts.flatten.any (·.deniesMember d sort name)) := by
  induction texts generalizing p with
  | nil => simp [narrowAll]
  | cons rules rest ih =>
    have hstep : p.narrowAll (rules :: rest) = (p.narrow rules).narrowAll rest := rfl
    rw [hstep, ih, deniesMember_narrow, List.flatten_cons, List.any_append, Bool.or_assoc]

/-- **What texts deny together is all that counts**: not in which order, nor in which text or rule. -/
theorem agrees_narrowAll (hpackage : ∀ name, p.allowsPackage name = q.allowsPackage name)
    (hcls : ∀ d, p.showsClass d = q.showsClass d)
    (hmember : ∀ d sort name, p.deniesMember d sort name = q.deniesMember d sort name)
    (h : ∀ x, Denied texts.flatten x ↔ Denied texts'.flatten x) : (p.narrowAll texts).Agrees (q.narrowAll texts') := by
  apply Agrees.of_layers
  · intro name
    rw [allowsPackage_narrowAll, allowsPackage_narrowAll, hpackage,
      Rule.any_congr_denied (fun _ => Rule.deniesPackage_iff) h]
  · intro d
    rw [showsClass_narrowAll, showsClass_narrowAll, hcls, Rule.any_congr_denied (fun _ => Rule.deniesClass_iff) h]
  · intro d sort name
    rw [deniesMember_narrowAll, deniesMember_narrowAll, hmember,
      Rule.any_congr_denied (fun _ => Rule.deniesMember_iff) h]

/-- The same rules, in any number and order, deny the same. -/
theorem agrees_narrowAll_of_mem (p : Policy) (texts texts' : List (List PackageRule))
    (h : ∀ r, r ∈ texts.flatten ↔ r ∈ texts'.flatten) : (p.narrowAll texts).Agrees (p.narrowAll texts') := by
  refine agrees_narrowAll (fun _ => rfl) (fun _ => rfl) (fun _ _ _ => rfl) fun x => ?_
  simp only [Denied, h]

/-- **Composition follows the text.** Two rule texts can be denied in either order, or as one text in which the second
one begins on a new line, and the policies that this makes give the same answers. Denied once more, a text changes no
answer. -/
theorem compose_append (p : Policy) {text text' : String} (h : ∃ rules, Rule.readRules text = .ok rules)
    (h' : ∃ rules, Rule.readRules text' = .ok rules) :
    (∃ q q' joined, (p.compose text >>= (·.compose text')) = .ok q ∧ (p.compose text' >>= (·.compose text)) = .ok q' ∧
      p.compose (text ++ "\n" ++ text') = .ok joined ∧ q.Agrees q' ∧ q.Agrees joined) ∧
    ∃ once twice, p.compose text = .ok once ∧ once.compose text = .ok twice ∧ twice.Agrees once := by
  obtain ⟨rules, hrules⟩ := h
  obtain ⟨rules', hrules'⟩ := h'
  have hfirst : ∀ p : Policy, p.compose text = .ok (p.narrow rules) := fun p => compose_eq_ok.2 ⟨rules, hrules, rfl⟩
  have hsecond : ∀ p : Policy, p.compose text' = .ok (p.narrow rules') := fun p =>
    compose_eq_ok.2 ⟨rules', hrules', rfl⟩
  have hjoined : p.compose (text ++ "\n" ++ text') = .ok (p.narrow (rules ++ rules')) :=
    compose_eq_ok.2 ⟨_, Rule.readRules_append hrules hrules', rfl⟩
  refine ⟨⟨(p.narrow rules).narrow rules', (p.narrow rules').narrow rules, p.narrow (rules ++ rules'), ?_, ?_, hjoined,
    ?_, ?_⟩, p.narrow rules, (p.narrow rules).narrow rules, hfirst p, hfirst _, ?_⟩
  · rw [hfirst]
    exact hsecond _
  · rw [hsecond]
    exact hfirst _
  · exact p.agrees_narrowAll_of_mem [rules, rules'] [rules', rules] (by simp [or_comm])
  · exact p.agrees_narrowAll_of_mem [rules, rules'] [rules ++ rules'] (by simp)
  · exact p.agrees_narrowAll_of_mem [rules, rules] [rules] (by simp)

/-- A text that ends in a comment, and one below it that has no rule. -/
theorem compose_append_wiping :
    let text := "app.model { Person { wipe(); } } // no more"
    let text' := "# nothing"
    (∃ rules, Rule.readRules text = .ok rules) ∧ (∃ rules, Rule.readRules text' = .ok rules) ∧
      ∃ q joined, (restricted.compose text >>= (·.compose text')) = .ok q ∧
        restricted.compose (text ++ "\n" ++ text') = .ok joined ∧ q.Agrees joined := by
  intro text text'
  have h : ∃ rules, Rule.readRules text = .ok rules :=
    ⟨[⟨"app.model", [("Person", { methods := ["wipe"] })]⟩], by decide +kernel⟩
  have h' : ∃ rules, Rule.readRules text' = .ok rules := ⟨[], by decide +kernel⟩
  obtain ⟨⟨q, -, joined, hq, -, hjoined, -, hagrees⟩, -⟩ := compose_append restricted h h'
  exact ⟨h, h', q, joined, hq, hjoined, hagrees⟩

end Policy

end MemberAccess
