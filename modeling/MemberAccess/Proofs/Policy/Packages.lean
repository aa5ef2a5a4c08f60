import MemberAccess.Proofs.Policy.Layers
import MemberAccess.Proofs.Registry.Names

/-!
# Packages of visible classes

A policy is asked for packages and for classes, and answers each from its layers. A class that it shows lies in a
package that it shows, with one exception: a class of the default package can be granted by its bare name, which says
nothing of its package.

* `Policy.Offers`: some layer shows a thing, and none above takes it away.
* `Policy.allowsPackage_iff`, `Policy.showsClass_iff`: this is what a policy answers.
* `Policy.package_or_named`: a class and its package.
* `ClassDecl.Named`: a declaration under a qualified name; `Store.simplyNamed_serveAll`: the classes of a store have
  names without a point.
* `Store.shows_package_iff`: the packages of visible classes.
-/

namespace MemberAccess

open Rule (PackageRule)

namespace Policy

/-- What a layer shows things by: it shows all of them, the core packages, or the class of a name. -/
inductive Source where
  | all
  | core
  | named (qualified : String)

namespace Source

/-- Classes of the package are shown by it. -/
def GivesPackage (package : String) : Source → Prop
  | all => True
  | core => package ∈ corePackages
  | named qualified => ∃ name, Text.splitLast '.' qualified = some (package, name)

/-- The class is shown by it. -/
def GivesClass (d : ClassDef) : Source → Prop
  | all => True
  | core => d.package ∈ corePackages
  | named qualified => qualified = d.qualifiedName

end Source

/-- Some layer shows a thing, and no rule in a layer above takes it away. -/
inductive Offers (Gives : Source → Prop) (takes : PackageRule → Bool) : Policy → Prop where
  | all (h : Gives .all) : Offers Gives takes .unrestricted
  | core (h : Gives .core) : Offers Gives takes .restricted
  | named {base : Policy} {names : List String} {name : String} (hname : name ∈ names) (h : Gives (.named name)) :
      Offers Gives takes (.granting base names)
  | under {base : Policy} {names : List String} (h : Offers Gives takes base) :
      Offers Gives takes (.granting base names)
  | spared {base : Policy} {rules : List PackageRule} (h : Offers Gives takes base) (hrules : rules.any takes = false) :
      Offers Gives takes (.narrowed base rules)

/-- The names that are granted in some layer. -/
def granted : Policy → List String
  | unrestricted | restricted => []
  | granting base names => names ++ base.granted
  | narrowed base _ => base.granted

variable {p : Policy} {d : ClassDef} {package name : String} {Gives Gives' : Source → Prop}
  {takes takes' : PackageRule → Bool}

/-! ## Answers of a policy, layer by layer -/

/-- A question that is answered from the layer on top and the policy below asks for what is offered. -/
theorem offers_iff (answer : Policy → Bool) (hall : answer unrestricted = true ↔ Gives .all)
    (hcore : answer restricted = true ↔ Gives .core)
    (hgranting : ∀ base names, answer (.granting base names) = true ↔
      answer base = true ∨ ∃ name ∈ names, Gives (.named name))
    (hnarrowed : ∀ base rules, answer (.narrowed base rules) = true ↔ answer base = true ∧ rules.any takes = false)
    (p : Policy) : answer p = true ↔ p.Offers Gives takes := by
  induction p with
  | unrestricted =>
    rw [hall]
    exact ⟨.all, fun | .all h => h⟩
  | restricted =>
    rw [hcore]
    exact ⟨.core, fun | .core h => h⟩
  | granting base names ih =>
    rw [hgranting, ih]
    constructor
    · rintro (h | ⟨name, hname, h⟩)
      · exact .under h
      · exact .named hname h
    · intro h
      cases h with
      | named hname h => exact .inr ⟨_, hname, h⟩
      | under h => exact .inl h
  | narrowed base rules ih =>
    rw [hnarrowed, ih]
    exact ⟨fun h => .spared h.1 h.2, fun | .spared h hrules => ⟨h, hrules⟩⟩

theorem allowsPackage_iff :
    p.allowsPackage package = true ↔ p.Offers (·.GivesPackage package) (·.deniesPackage package) := by
  refine offers_iff (allowsPackage package) ?_ ?_ ?_ ?_ p
  · simp [allowsPackage, Source.GivesPackage]
  · simp [allowsPackage, Source.GivesPackage]
  · intro base names
    simp [allowsPackage, Source.GivesPackage]
  · intro base rules
    simp [allowsPackage]

theorem showsClass_iff : p.showsClass d = true ↔ p.Offers (·.GivesClass d) (·.deniesClass d) := by
  refine offers_iff (showsClass d) ?_ ?_ ?_ ?_ p
  · simp [showsClass, Source.GivesClass]
  · simp [showsClass, allowsPackage, Source.GivesClass]
  · intro base names
    simp [showsClass, Source.GivesClass, or_comm]
  · intro base rules
    simp [showsClass]

/-- What is shown by more and taken away by less is still offered. -/
theorem Offers.imp (h : p.Offers Gives takes) (hgives : ∀ x, Gives x → Gives' x)
    (htakes : ∀ r, takes' r = true → takes r = true) : p.Offers Gives' takes' := by
  induction h with
  | all h => exact .all (hgives _ h)
  | core h => exact .core (hgives _ h)
  | named hname h => exact .named hname (hgives _ h)
  | under _ ih => exact .under ih
  | spared _ hrules ih =>
    refine .spared ih ?_
    rw [List.any_eq_false] at hrules ⊢
    exact fun r hr ht => hrules r hr (htakes r ht)

/-- Something shows what is offered. -/
theorem Offers.exists_source (h : p.Offers Gives takes) : ∃ x, Gives x := by
  induction h with
  | all h | core h => exact ⟨_, h⟩
  | named _ h => exact ⟨_, h⟩
  | under _ ih | spared _ _ ih => exact ih

/-- What is shown in one of two ways is offered in one of them. -/
theorem Offers.or (h : p.Offers (fun x => Gives x ∨ Gives' x) takes) :
    p.Offers Gives takes ∨ p.Offers Gives' takes := by
  induction h with
  | all h => exact h.imp .all .all
  | core h => exact h.imp .core .core
  | named hname h => exact h.imp (.named hname) (.named hname)
  | under _ ih => exact ih.imp .under .under
  | spared _ hrules ih => exact ih.imp (.spared · hrules) (.spared · hrules)

theorem Offers.mem_granted (h : p.Offers (· = .named name) takes) : name ∈ p.granted := by
  induction h with
  | all h | core h => cases h
  | named hname h =>
    cases h
    exact List.mem_append_left _ hname
  | under _ ih => exact List.mem_append_right _ ih
  | spared _ _ ih => exact ih

/-- A rule that denies a package denies the classes in it. -/
theorem deniesClass_of_deniesPackage {r : PackageRule} (h : r.deniesPackage d.package = true) :
    r.deniesClass d = true := by
  unfold PackageRule.deniesPackage at h
  unfold PackageRule.deniesClass
  rw [Bool.and_eq_true] at h
  simp [h.1, h.2]

/-! ## Classes and their packages -/

/-- What shows a class shows its package as well, unless it is the bare name of a class of the default package. -/
theorem Source.gives_or_named {x : Source} (hname : '.' ∉ d.name.toList) (h : x.GivesClass d) :
    x.GivesPackage d.package ∨ d.package = "" ∧ x = .named d.name := by
  cases x with
  | all => exact .inl trivial
  | core => exact .inl h
  | named qualified =>
    unfold GivesClass ClassDef.qualifiedName qualify at h
    by_cases hpackage : d.package = ""
    · rw [if_pos hpackage] at h
      exact .inr ⟨hpackage, congrArg Source.named h⟩
    · rw [if_neg hpackage] at h
      refine .inl ⟨d.name, Text.splitLast_eq_some_iff.2 ⟨?_, hname⟩⟩
      simp [h, String.toList_append]

/-- **A class that is shown lies in a package that is shown**, unless it is shown by its bare name. -/
theorem package_or_named (hname : '.' ∉ d.name.toList) (h : p.showsClass d = true) :
    p.allowsPackage d.package = true ∨ d.package = "" ∧ p.Offers (· = .named d.name) (·.deniesClass d) := by
  have hoffers := (showsClass_iff.1 h).imp (fun x => Source.gives_or_named hname) fun _ => id
  rcases hoffers.or with hpackage | hbare
  · exact .inl (allowsPackage_iff.2 (hpackage.imp (fun _ => id) fun _ => deniesClass_of_deniesPackage))
  · obtain ⟨-, hdefault, -⟩ := hbare.exists_source
    exact .inr ⟨hdefault, hbare.imp (fun _ => And.right) fun _ => id⟩

/-- The default package is shown: by an open base, or by a grant of a name with a point in front and no other one. -/
def ShowsDefault (p : Policy) : Prop :=
  p.Offers (fun x => x = .all ∨ ∃ name, x = .named ("." ++ name) ∧ '.' ∉ name.toList) (·.deniesPackage "")

theorem allowsPackage_default_iff : p.allowsPackage "" = true ↔ p.ShowsDefault := by
  have hgives : ∀ x : Source, x.GivesPackage "" ↔
      x = .all ∨ ∃ name, x = .named ("." ++ name) ∧ '.' ∉ name.toList := by
    intro x
    cases x with
    | all => simp [Source.GivesPackage]
    | core => simp [Source.GivesPackage, corePackages]
    | named qualified =>
      have hcut : ∀ name : String, qualified.toList = '.' :: name.toList ↔ qualified = "." ++ name := by
        intro name
        rw [← String.toList_inj, String.toList_append]
        rfl
      simp [Source.GivesPackage, Text.splitLast_eq_some_iff, hcut]
  rw [allowsPackage_iff]
  exact ⟨fun h => h.imp (fun x => (hgives x).1) fun _ => id, fun h => h.imp (fun x => (hgives x).2) fun _ => id⟩

end Policy

/-! ## Names of classes -/

namespace ClassDecl

/-- A declaration has the package and the name of some qualified name. -/
def Named (d : ClassDecl) : Prop :=
  ∃ qualified, d.package = (ofName qualified).package ∧ d.name = (ofName qualified).name

theorem ofName_name (qualified : String) : '.' ∉ (ofName qualified).name.toList := by
  unfold ofName
  cases hcut : Text.splitLast '.' qualified with
  | none => exact Text.splitLast_eq_none_iff.1 hcut
  | some parts => exact (Text.splitLast_eq_some_iff.1 hcut).2

/-- That is the case when there is no point in its name. -/
theorem named_iff {d : ClassDecl} : d.Named ↔ '.' ∉ d.name.toList := by
  constructor
  · rintro ⟨qualified, -, hname⟩
    rw [hname]
    exact ofName_name qualified
  · intro h
    have hcut : Text.splitLast '.' (d.package ++ "." ++ d.name) = some (d.package, d.name) :=
      Text.splitLast_eq_some_iff.2 ⟨by simp [String.toList_append], h⟩
    refine ⟨d.package ++ "." ++ d.name, ?_⟩
    simp [ofName, hcut]

end ClassDecl

/-- The names of the classes have no point in them, arrays apart. -/
def Registry.SimplyNamed (r : Registry) : Prop :=
  ∀ c d, r.class? c = some d → d.isArray = false → '.' ∉ d.name.toList

namespace Store

variable {s : Store}

theorem simplyNamed_push {r : Registry} {make : ClassId → ClassDef} (h : r.SimplyNamed)
    (hmake : (make r.next).isArray = true ∨ '.' ∉ (make r.next).name.toList) : (r.push make).SimplyNamed := by
  intro c d hd hplain
  rcases Registry.class?_push hd with hold | ⟨-, rfl⟩
  · exact h c d hold hplain
  · refine hmake.resolve_left fun harray => ?_
    rw [hplain] at harray
    cases harray

theorem simplyNamed_serve (h : s.registry.SimplyNamed) (q : Request) (hq : ∀ d, q = .register d → d.Named) :
    (s.serve q).2.registry.SimplyNamed := by
  rcases s.serve_classes q with ⟨hsame, -⟩ | ⟨d, hd, -, e⟩ | ⟨t, -, e⟩
  · intro c d hd
    unfold Registry.class? at hd
    rw [hsame] at hd
    exact h c d hd
  · rw [e]
    exact simplyNamed_push h (.inr (ClassDecl.named_iff.1 (hq d hd)))
  · rw [e]
    exact simplyNamed_push h (.inl rfl)

theorem simplyNamed_serveAll (h : s.registry.SimplyNamed) {qs : List Request} (hqs : ∀ d, .register d ∈ qs → d.Named) :
    (s.serveAll qs).registry.SimplyNamed := by
  induction qs generalizing s with
  | nil => exact h
  | cons q qs ih =>
    refine ih (simplyNamed_serve h q fun d hd => hqs d ?_) fun d hd => hqs d (List.mem_cons_of_mem _ hd)
    rw [hd]
    exact List.mem_cons_self

theorem simplyNamed_initial : Registry.initial.SimplyNamed := by
  have hall : ∀ d ∈ Registry.initial.classes, '.' ∉ d.name.toList := by decide +kernel
  exact fun c d hd _ => hall d (Registry.mem_classes_iff.2 ⟨c, hd⟩)

/-- **Packages of visible classes**, in every store whose classes are declared under qualified names, and under every
policy. The package of a class that is shown is shown, except perhaps the default package, which is shown exactly if
an open base shows it or a grant of a name with a point in front, and no rule above denies it. A class that is shown
without its package lies in the default package and is granted by its bare name, so there is none under a policy that
grants no bare names. -/
theorem shows_package_iff (heap : Heap) {qs : List Request} (hqs : ∀ d, .register d ∈ qs → d.Named) (p : Policy)
    {c : ClassId} {d : ClassDef} (hd : ((start heap).serveAll qs).registry.class? c = some d)
    (hplain : d.isArray = false) (hshown : p.allowsClass d = true) :
    (p.allowsPackage d.package = true ↔ d.package ≠ "" ∨ p.ShowsDefault) ∧
    (p.allowsPackage d.package = false → d.package = "" ∧ p.Offers (· = .named d.name) (·.deniesClass d)) ∧
    ((∀ name ∈ p.granted, '.' ∈ name.toList) → p.allowsPackage d.package = true) := by
  have hname : '.' ∉ d.name.toList := simplyNamed_serveAll simplyNamed_initial hqs c d hd hplain
  have hclass : p.showsClass d = true := by
    unfold Policy.allowsClass at hshown
    rwa [hplain, Bool.false_or] at hshown
  have hboth := Policy.package_or_named hname hclass
  refine ⟨⟨?_, ?_⟩, ?_, ?_⟩
  · intro hpackage
    by_cases hdefault : d.package = ""
    · rw [hdefault] at hpackage
      exact .inr (Policy.allowsPackage_default_iff.1 hpackage)
    · exact .inl hdefault
  · intro h
    rcases hboth with hpackage | ⟨hdefault, -⟩
    · exact hpackage
    · rw [hdefault]
      exact Policy.allowsPackage_default_iff.2 (h.resolve_left fun hne => hne hdefault)
  · intro hhidden
    refine hboth.resolve_left fun hpackage => ?_
    rw [hhidden] at hpackage
    cases hpackage
  · intro hgrants
    refine hboth.resolve_right ?_
    rintro ⟨-, hoffers⟩
    exact hname (hgrants d.name hoffers.mem_granted)

/-- A class of the default package, and one of another package. -/
def tools : List Request := [.register (.ofName "Tool"), .register (.ofName "app.Tool")]

theorem named_tools : ∀ d, .register d ∈ tools → d.Named := by
  intro d hd
  rcases (by simpa [tools] using hd : d = .ofName "Tool" ∨ d = .ofName "app.Tool") with rfl | rfl <;>
    exact ⟨_, rfl, rfl⟩

/-- Both are granted by name, and only the package of one is shown. -/
theorem shows_package_iff_tools :
    let r := ((start .empty).serveAll tools).registry
    let p := Policy.restricted.withClasses ["Tool", "app.Tool"]
    (∀ d, .register d ∈ tools → d.Named) ∧ ∃ tool other, r.class? ⟨19⟩ = some tool ∧ r.class? ⟨20⟩ = some other ∧
      p.allowsClass tool = true ∧ p.allowsClass other = true ∧ p.allowsPackage other.package = true ∧
      p.allowsPackage tool.package = false ∧ p.Offers (· = .named tool.name) (·.deniesClass tool) := by
  intro r p
  have htool : r.class? ⟨19⟩ = some (.ofDecl ⟨19⟩ (.ofName "Tool")) := by rfl
  have hother : r.class? ⟨20⟩ = some (.ofDecl ⟨20⟩ (.ofName "app.Tool")) := by rfl
  have hshown : p.allowsClass (.ofDecl ⟨19⟩ (.ofName "Tool")) = true := by decide +kernel
  have hshown' : p.allowsClass (.ofDecl ⟨20⟩ (.ofName "app.Tool")) = true := by decide +kernel
  have hhidden : p.allowsPackage (ClassDef.ofDecl ⟨19⟩ (.ofName "Tool")).package = false := by decide +kernel
  have hbare := (shows_package_iff .empty named_tools p htool rfl hshown).2.1 hhidden
  have hpackage := (shows_package_iff .empty named_tools p hother rfl hshown').1.2 (.inl (by decide +kernel))
  exact ⟨named_tools, _, _, htool, hother, hshown, hshown', hpackage, hhidden, hbare.2⟩

/-- A class of the default package that a restricted policy shows by its name. -/
theorem not_shows_package : ¬∀ (heap : Heap) (qs : List Request), (∀ d, .register d ∈ qs → d.Named) →
    ∀ base ∈ [Policy.unrestricted, .restricted], ∀ layers p, base.extendAll layers = .ok p →
      ∀ c d, ((start heap).serveAll qs).registry.class? c = some d → d.isArray = false → p.allowsClass d = true →
        p.allowsPackage d.package = true := by
  intro h
  have htool : ((start .empty).serveAll tools).registry.class? ⟨19⟩ = some (.ofDecl ⟨19⟩ (.ofName "Tool")) := by rfl
  have hpackage := h .empty tools named_tools .restricted (by simp) [.classes ["Tool"]]
    (Policy.restricted.withClasses ["Tool"]) rfl ⟨19⟩ _ htool rfl (by decide +kernel)
  have hhidden : (Policy.restricted.withClasses ["Tool"]).allowsPackage
      (ClassDef.ofDecl ⟨19⟩ (.ofName "Tool")).package = false := by decide +kernel
  rw [hhidden] at hpackage
  cases hpackage

end Store

end MemberAccess
