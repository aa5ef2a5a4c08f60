import MemberAccess.Setup
import MemberAccess.Proofs.Policy.Composition

/-!
# Policies as configured

A configuration names a base, classes that are granted on top of it, and texts of rules that are denied on top of all
that. So a denial always wins over a grant, whatever order either of them is listed in.

* `Policy.foldlM_compose_eq_error_iff`: the first text that cannot be read is the one that is reported.
* `Config.Configured`: what is visible, in terms of the base, the grants and the rules of the texts.
* `Config.granted_congr`: only the names count that are granted.
* `Config.build_answers`: when there is an engine, and what it shows.
-/

namespace MemberAccess

open Rule (Denial PackageRule readRules)

/-- The rules of a text, none when it cannot be read. -/
def Rule.rulesOf (text : String) : List PackageRule := (readRules text).toOption.getD []

theorem Rule.mem_rulesOf_iff {text : String} {r : PackageRule} :
    r ∈ rulesOf text ↔ ∃ rules, readRules text = .ok rules ∧ r ∈ rules := by
  unfold rulesOf
  cases readRules text <;> simp [Except.toOption]

namespace Policy

variable {texts : List String}

/-- **Texts that can all be read** are denied one after the other. -/
theorem foldlM_compose_of_reads (p : Policy) (h : ∀ text ∈ texts, ∃ rules, readRules text = .ok rules) :
    texts.foldlM compose p = .ok (p.narrowAll (texts.map Rule.rulesOf)) := by
  induction texts generalizing p with
  | nil => rfl
  | cons text rest ih =>
    obtain ⟨rules, hrules⟩ := h text List.mem_cons_self
    have hof : Rule.rulesOf text = rules := by simp [Rule.rulesOf, hrules, Except.toOption]
    have hfirst : p.compose text = .ok (p.narrow rules) := compose_eq_ok.2 ⟨rules, hrules, rfl⟩
    rw [List.foldlM_cons, hfirst, List.map_cons, hof]
    exact ih (p.narrow rules) fun t ht => h t (List.mem_cons_of_mem _ ht)

theorem reads_of_foldlM_compose {p q : Policy} (h : texts.foldlM compose p = .ok q) :
    ∀ text ∈ texts, ∃ rules, readRules text = .ok rules := by
  induction texts generalizing p with
  | nil => exact nofun
  | cons text rest ih =>
    rw [List.foldlM_cons] at h
    cases hfirst : p.compose text with
    | error e =>
      rw [hfirst] at h
      cases h
    | ok next =>
      rw [hfirst] at h
      intro t ht
      rcases List.mem_cons.1 ht with rfl | ht
      · obtain ⟨rules, hrules, -⟩ := compose_eq_ok.1 hfirst
        exact ⟨rules, hrules⟩
      · exact ih h t ht

/-- **The first text that cannot be read** is the one that is reported. -/
theorem foldlM_compose_eq_error_iff (p : Policy) {e : Rule.Error} : texts.foldlM compose p = .error e ↔
    ∃ before text after, texts = before ++ text :: after ∧
      (∀ t ∈ before, ∃ rules, readRules t = .ok rules) ∧ readRules text = .error e := by
  induction texts generalizing p with
  | nil => simp [pure, Except.pure]
  | cons text rest ih =>
    rw [List.foldlM_cons]
    cases hread : readRules text with
    | error f =>
      have hfirst : p.compose text = .error f := by simp [compose, hread, Except.map]
      rw [hfirst]
      constructor
      · rintro ⟨rfl⟩
        exact ⟨[], text, rest, rfl, nofun, hread⟩
      · rintro ⟨before, t, after, htexts, hbefore, ht⟩
        cases before with
        | nil =>
          cases htexts
          rw [hread] at ht
          cases ht
          rfl
        | cons first before =>
          cases htexts
          obtain ⟨rules, hrules⟩ := hbefore text List.mem_cons_self
          rw [hread] at hrules
          cases hrules
    | ok rules =>
      have hfirst : p.compose text = .ok (p.narrow rules) := compose_eq_ok.2 ⟨rules, hread, rfl⟩
      rw [hfirst]
      refine (ih (p.narrow rules)).trans ⟨?_, ?_⟩
      · rintro ⟨before, t, after, rfl, hbefore, ht⟩
        refine ⟨text :: before, t, after, rfl, fun s hs => ?_, ht⟩
        rcases List.mem_cons.1 hs with rfl | hs
        · exact ⟨rules, hread⟩
        · exact hbefore s hs
      · rintro ⟨before, t, after, htexts, hbefore, ht⟩
        cases before with
        | nil =>
          cases htexts
          rw [hread] at ht
          cases ht
        | cons first before =>
          cases htexts
          exact ⟨before, t, after, rfl, fun s hs => hbefore s (List.mem_cons_of_mem _ hs), ht⟩

end Policy

namespace Config

variable {c c' : Config} {d : ClassDef}

/-- A rule stands in one of the deny texts. -/
def HasRule (c : Config) (r : PackageRule) : Prop :=
  ∃ text ∈ c.deny, ∃ rules, readRules text = .ok rules ∧ r ∈ rules

/-- A rule of one of the deny texts denies it. -/
def Denies (c : Config) (x : Denial) : Prop := ∃ r, c.HasRule r ∧ r.Denies x

/-- The fault of the first deny text that is no rule text. -/
def FirstFault (c : Config) (e : Rule.Error) : Prop :=
  ∃ before text after, c.deny = before ++ text :: after ∧
    (∀ t ∈ before, ∃ rules, readRules t = .ok rules) ∧ readRules text = .error e

/-- What a policy shows that is as a configuration says. Arrays are shown in any case; another class when the base
shows it or it is granted by name, unless a rule denies it; and a member when its class is shown, unless a rule denies
it. -/
structure Configured (c : Config) (p : Policy) : Prop where
  cls : ∀ d, d.isArray = false → (p.allowsClass d = true ↔
    (c.base.policy.allowsClass d = true ∨ d.qualifiedName ∈ c.allow) ∧ ∀ r, c.HasRule r → r.deniesClass d = false)
  method : ∀ d m, p.allowsMethod d m = true ↔
    p.allowsClass d = true ∧ ∀ r, c.HasRule r → r.deniesMember d .method m.name = false
  field : ∀ d f, p.allowsField d f = true ↔
    p.allowsClass d = true ∧ ∀ r, c.HasRule r → r.deniesMember d .field f.name = false
  constructor : ∀ d, p.allowsConstructor d = true ↔
    p.allowsClass d = true ∧ ∀ r, c.HasRule r → r.deniesMember d .method d.name = false

/-! ## Grants -/

theorem mem_flatten_iff {r : PackageRule} : r ∈ (c.deny.map Rule.rulesOf).flatten ↔ c.HasRule r := by
  simp [HasRule, Rule.mem_rulesOf_iff]

theorem denied_flatten_iff {x : Denial} : Rule.Denied (c.deny.map Rule.rulesOf).flatten x ↔ c.Denies x := by
  simp only [Rule.Denied, mem_flatten_iff, Denies]

theorem showsClass_granted : c.granted.showsClass d = true ↔
    c.base.policy.showsClass d = true ∨ d.qualifiedName ∈ c.allow := by
  unfold granted
  split
  · rename_i hnone
    simp [List.isEmpty_iff.1 hnone]
  · simp [Policy.withClasses, Policy.showsClass, or_comm]

/-- Neither bases nor grants deny members. -/
theorem deniesMember_granted (c : Config) (sort : Rule.MemberSort) (name : String) :
    c.granted.deniesMember d sort name = false := by
  have hbase : c.base.policy.deniesMember d sort name = false := by cases c.base <;> rfl
  unfold granted
  split <;> exact hbase

/-- **Only the names count that are granted**, not how often and in which order. -/
theorem granted_congr (hbase : c'.base = c.base) (hallow : ∀ name, name ∈ c'.allow ↔ name ∈ c.allow) :
    (∀ name, c'.granted.allowsPackage name = c.granted.allowsPackage name) ∧
      ∀ d, c'.granted.showsClass d = c.granted.showsClass d := by
  constructor
  · intro name
    have hempty : c'.allow.isEmpty = c.allow.isEmpty := by
      rw [Bool.eq_iff_iff, List.isEmpty_iff, List.isEmpty_iff, List.eq_nil_iff_forall_not_mem,
        List.eq_nil_iff_forall_not_mem]
      simp only [hallow]
    unfold granted
    rw [hempty, hbase]
    split
    · rfl
    · rw [Bool.eq_iff_iff]
      simp [Policy.withClasses, Policy.allowsPackage, hallow]
  · intro d
    rw [Bool.eq_iff_iff, showsClass_granted, showsClass_granted, hbase, hallow]

/-! ## Denials on top -/

/-- **A denial wins**: over the base and over grants. -/
theorem configured_narrowAll (c : Config) : c.Configured (c.granted.narrowAll (c.deny.map Rule.rulesOf)) := by
  have hnone : ∀ f : PackageRule → Bool, (!(c.deny.map Rule.rulesOf).flatten.any f) = true ↔
      ∀ r, c.HasRule r → f r = false := by
    intro f
    rw [Bool.not_eq_true', List.any_eq_false]
    simp only [mem_flatten_iff, Bool.not_eq_true]
  have hmember : ∀ d sort name,
      ((c.granted.narrowAll (c.deny.map Rule.rulesOf)).allowsClass d &&
        !(c.granted.narrowAll (c.deny.map Rule.rulesOf)).deniesMember d sort name) = true ↔
      (c.granted.narrowAll (c.deny.map Rule.rulesOf)).allowsClass d = true ∧
        ∀ r, c.HasRule r → r.deniesMember d sort name = false := by
    intro d sort name
    rw [Bool.and_eq_true, Policy.deniesMember_narrowAll, deniesMember_granted, Bool.false_or, hnone]
  refine ⟨fun d hplain => ?_, fun d m => hmember d .method m.name, fun d f => hmember d .field f.name,
    fun d => hmember d .method d.name⟩
  unfold Policy.allowsClass
  rw [hplain, Bool.false_or, Bool.false_or, Policy.showsClass_narrowAll, Bool.and_eq_true, showsClass_granted, hnone]

/-! ## Engines -/

theorem build_of_reads (h : ∀ text ∈ c.deny, ∃ rules, readRules text = .ok rules) :
    c.build = .ok (.new (c.granted.narrowAll (c.deny.map Rule.rulesOf)) c.strategy) := by
  unfold build policy?
  rw [Policy.foldlM_compose_of_reads _ h]
  rfl

theorem reads_of_build {engine : Engine} (h : c.build = .ok engine) :
    ∀ text ∈ c.deny, ∃ rules, readRules text = .ok rules := by
  unfold build at h
  cases hpolicy : c.policy? with
  | error e =>
    rw [hpolicy] at h
    cases h
  | ok p => exact Policy.reads_of_foldlM_compose hpolicy

theorem build_eq_error_iff (c : Config) (e : Rule.Error) : c.build = .error e ↔ c.FirstFault e := by
  have hpolicy : c.build = .error e ↔ c.policy? = .error e := by
    unfold build
    cases c.policy? <;> simp [Except.map]
  exact hpolicy.trans (Policy.foldlM_compose_eq_error_iff c.granted)

/-- **What a configuration makes.** There is no engine exactly if one of the deny texts is no rule text, and the fault
is that of the first one. Otherwise a class is visible if the base shows it or it is granted, and a member if its class
is, except for what the rules of the deny texts deny. A configuration with the same base, the same names granted and
the same denials, in whatever order, and however they are spread over rules and texts, gives the same answers. -/
theorem build_answers (c : Config) :
    ((∃ e, c.build = .error e) ↔ ∃ text ∈ c.deny, ¬∃ rules, readRules text = .ok rules) ∧
    (∀ e, c.build = .error e ↔ c.FirstFault e) ∧
    ((∀ text ∈ c.deny, ∃ rules, readRules text = .ok rules) →
      ∃ engine, c.build = .ok engine ∧ c.Configured engine.introspector.policy ∧
        ∀ (c' : Config) (engine' : Engine), c'.base = c.base → (∀ name, name ∈ c'.allow ↔ name ∈ c.allow) →
          (∀ x, c'.Denies x ↔ c.Denies x) → c'.build = .ok engine' →
            engine'.introspector.policy.Agrees engine.introspector.policy) := by
  refine ⟨⟨?_, ?_⟩, c.build_eq_error_iff, fun h => ⟨_, build_of_reads h, c.configured_narrowAll, ?_⟩⟩
  · rintro ⟨e, he⟩
    obtain ⟨before, text, after, hdeny, -, hfault⟩ := (c.build_eq_error_iff e).1 he
    refine ⟨text, by simp [hdeny], ?_⟩
    rintro ⟨rules, hrules⟩
    rw [hfault] at hrules
    cases hrules
  · rintro ⟨text, htext, hnot⟩
    cases hbuild : c.build with
    | error e => exact ⟨e, rfl⟩
    | ok engine => exact absurd (reads_of_build hbuild text htext) hnot
  · intro c' engine' hbase hallow hdenies hok
    rw [build_of_reads (reads_of_build hok)] at hok
    cases hok
    obtain ⟨hpackage, hcls⟩ := granted_congr hbase hallow
    refine Policy.agrees_narrowAll hpackage hcls (fun d sort name => ?_) fun x => ?_
    · rw [deniesMember_granted, deniesMember_granted]
    · rw [denied_flatten_iff, denied_flatten_iff, hdenies]

/-- A class that is granted, with two of its members denied. -/
def redacted : Config where
  base := .restricted
  allow := ["app.model.Person"]
  deny := ["app.model { Person { ssn; wipe(); } }"]

/-- The same with a text for each member, the other way round. -/
def redactedTwice : Config where
  base := .restricted
  allow := ["app.model.Person", "app.model.Person"]
  deny := ["app.model { Person { wipe(); } }", "app.model { Person { ssn; } } # below it"]

theorem build_answers_redacted :
    ∃ engine engine', redacted.build = .ok engine ∧ redactedTwice.build = .ok engine' ∧
      redacted.Configured engine.introspector.policy ∧
      engine'.introspector.policy.Agrees engine.introspector.policy := by
  have hdenied : (redacted.deny.map Rule.rulesOf).flatten =
      [⟨"app.model", [("Person", { fields := ["ssn"], methods := ["wipe"] })]⟩] := by decide +kernel
  have hdenied' : (redactedTwice.deny.map Rule.rulesOf).flatten =
      [⟨"app.model", [("Person", { methods := ["wipe"] })]⟩, ⟨"app.model", [("Person", { fields := ["ssn"] })]⟩] := by
    decide +kernel
  have hsame : ∀ x, redactedTwice.Denies x ↔ redacted.Denies x := by
    intro x
    rw [← denied_flatten_iff, ← denied_flatten_iff, hdenied, hdenied']
    cases x with
    | package pattern => simp [Rule.Denied, PackageRule.Denies, PackageRule.deniesAll]
    | cls pattern name => simp [Rule.Denied, PackageRule.Denies, Assoc.get?, Rule.ClassRule.deniesAll]
    | member pattern owner sort name =>
      cases sort <;> simp [Rule.Denied, PackageRule.Denies, Assoc.get?, Rule.ClassRule.denies]
  have hreads : ∀ c ∈ [redacted, redactedTwice], ∀ text ∈ c.deny, ∃ rules, readRules text = .ok rules := by
    have hok : ∀ c ∈ [redacted, redactedTwice], ∀ text ∈ c.deny, (readRules text).isOk = true := by decide +kernel
    intro c hc text htext
    specialize hok c hc text htext
    cases h : readRules text with
    | error e =>
      rw [h] at hok
      cases hok
    | ok rules => exact ⟨rules, rfl⟩
  obtain ⟨engine, hengine, hconfigured, hagrees⟩ := redacted.build_answers.2.2 (hreads redacted (by simp))
  obtain ⟨engine', hengine', -⟩ := redactedTwice.build_answers.2.2 (hreads redactedTwice (by simp))
  exact ⟨engine, engine', hengine, hengine', hconfigured,
    hagrees redactedTwice engine' rfl (by simp [redacted, redactedTwice]) hsame hengine'⟩

end Config

end MemberAccess
