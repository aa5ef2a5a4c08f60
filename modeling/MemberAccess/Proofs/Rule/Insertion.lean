import MemberAccess.Proofs.Rule.Grammar

/-!
# One more class block

A class block that is put into a package block denies more, with one exception. A block without members denies its
whole class, but the blocks of one class are added up: as soon as another block lists members for that class, only
these are denied, and the class and the rest of its members come back.

* `Lexes.append_line`, `Lexes.split`: texts that are put together and taken apart between two tokens.
* `Insertion`: a class block put into a package block, somewhere between its class blocks.
* `Insertion.Reopens`: a class that the new block brings back.
* `compose_insert`: these are all the classes that come back, and without one the policy shows less.
-/

namespace MemberAccess.Rule

variable {cs before after : List Char} {ts us : List Token}

/-! ## Texts in parts -/

theorem EndsLine.of_append (h : EndsLine (before ++ after)) : EndsLine before := by
  cases before with
  | nil => exact endsLine_nil
  | cons c rest => exact endsLine_cons.2 (endsLine_cons.1 h)

theorem EndsName.of_append (h : EndsName (before ++ after)) : EndsName before := by
  cases before with
  | nil => exact endsName_nil
  | cons c rest => exact endsName_cons.2 (endsName_cons.1 h)

/-- **A text that splits, and another one below it.** The line that ends keeps comments and names apart. -/
theorem Lexes.append_line (h : Lexes before ts) (h' : Lexes after us) : Lexes (before ++ '\n' :: after) (ts ++ us) := by
  induction h with
  | done => exact lexes_newline_iff.2 h'
  | blank hc _ ih => exact .blank hc ih
  | @comment mark body rest ts hmark hbody hend _ ih =>
    have hend' : EndsLine (rest ++ '\n' :: after) := by
      cases rest with
      | nil => exact endsLine_cons.2 rfl
      | cons c rest => exact endsLine_cons.2 (endsLine_cons.1 hend)
    rw [List.append_assoc, List.append_assoc]
    exact .comment hmark hbody hend' ih
  | sign hc _ ih => exact .sign hc ih
  | @name first word rest ts hfirst hword hend _ ih =>
    have hend' : EndsName (rest ++ '\n' :: after) := by
      cases rest with
      | nil => exact endsName_cons.2 (by decide +kernel)
      | cons c rest => exact endsName_cons.2 (endsName_cons.1 hend)
    rw [List.cons_append, List.append_assoc]
    exact .name hfirst hword hend' ih

/-- **A text can be taken apart between two of its tokens.** -/
theorem Lexes.split (h : Lexes cs (ts ++ us)) :
    ∃ before after, cs = before ++ after ∧ Lexes before ts ∧ Lexes after us := by
  generalize hall : ts ++ us = all at h
  induction h generalizing ts with
  | done =>
    obtain ⟨rfl, rfl⟩ := List.append_eq_nil_iff.1 hall
    exact ⟨[], [], rfl, .done, .done⟩
  | @blank c rest all hc h ih =>
    obtain ⟨before, after, rfl, hbefore, hafter⟩ := ih hall
    exact ⟨c :: before, after, rfl, .blank hc hbefore, hafter⟩
  | @comment mark body rest all hmark hbody hend h ih =>
    obtain ⟨before, after, rfl, hbefore, hafter⟩ := ih hall
    refine ⟨mark ++ (body ++ before), after, ?_, .comment hmark hbody hend.of_append hbefore, hafter⟩
    rw [List.append_assoc, List.append_assoc]
  | @sign c t rest all hc h ih =>
    cases ts with
    | nil =>
      subst hall
      exact ⟨[], c :: rest, rfl, .done, .sign hc h⟩
    | cons t' ts =>
      obtain ⟨rfl, hrest⟩ := List.cons.inj hall
      obtain ⟨before, after, rfl, hbefore, hafter⟩ := ih hrest
      exact ⟨c :: before, after, rfl, .sign hc hbefore, hafter⟩
  | @name first word rest all hfirst hword hend h ih =>
    cases ts with
    | nil =>
      subst hall
      exact ⟨[], first :: (word ++ rest), rfl, .done, .name hfirst hword hend h⟩
    | cons t' ts =>
      obtain ⟨rfl, hrest⟩ := List.cons.inj hall
      obtain ⟨before, after, rfl, hbefore, hafter⟩ := ih hrest
      refine ⟨first :: (word ++ before), after, ?_, .name hfirst hword hend.of_append hbefore, hafter⟩
      rw [List.cons_append, List.append_assoc]

/-! ## Insertions -/

/-- A class block put into a package block, between the class blocks in front of it and those behind it. -/
structure Insertion where
  before : List PackageBlock
  pattern : String
  front : List ClassBlock
  added : ClassBlock
  back : List ClassBlock
  after : List PackageBlock

namespace Insertion

/-- The package block as it was. -/
def block (e : Insertion) : PackageBlock := ⟨e.pattern, e.front ++ e.back⟩

/-- The package block with the new class block. -/
def grown (e : Insertion) : PackageBlock := ⟨e.pattern, e.front ++ e.added :: e.back⟩

def old (e : Insertion) : List PackageBlock := e.before ++ e.block :: e.after

def new (e : Insertion) : List PackageBlock := e.before ++ e.grown :: e.after

/-- The package block denied a whole class, by blocks without members, and the new block lists members for it. -/
structure Undoes (e : Insertion) (d : ClassDef) : Prop where
  covers : Rule.covers e.pattern.toList d.package.toList = true
  named : d.name ∈ (e.front ++ e.back).map (·.name)
  bare : listed d.name (e.front ++ e.back) = []
  again : e.added.name = d.name
  members : e.added.members ≠ []

/-- A class comes back: the policy shows it, no other package block denies it, and the new class block undoes what
denied it. -/
structure Reopens (e : Insertion) (p : Policy) (d : ClassDef) : Prop where
  plain : d.isArray = false
  shown : p.showsClass d = true
  alone : ∀ b ∈ e.before ++ e.after, b.rule.deniesClass d = false
  undone : e.Undoes d

variable {e : Insertion} {d : ClassDef}

/-- **The new class block can be put there**, on lines of its own. -/
theorem derives_new {text inserted : String} (h : Derives text e.old)
    (hinserted : Lexes inserted.toList e.added.tokens) : ∃ before after, text.toList = before ++ after ∧
    Derives (String.ofList (before ++ '\n' :: (inserted.toList ++ '\n' :: after))) e.new := by
  have hold : e.old.flatMap PackageBlock.tokens =
      (e.before.flatMap PackageBlock.tokens ++ openPackage e.pattern e.front) ++
        (e.back.flatMap ClassBlock.tokens ++ .closing :: e.after.flatMap PackageBlock.tokens) := by
    simp [old, block, PackageBlock.tokens, openPackage]
  have hnew : e.new.flatMap PackageBlock.tokens =
      (e.before.flatMap PackageBlock.tokens ++ openPackage e.pattern e.front) ++ (e.added.tokens ++
        (e.back.flatMap ClassBlock.tokens ++ .closing :: e.after.flatMap PackageBlock.tokens)) := by
    simp [new, grown, PackageBlock.tokens, openPackage]
  unfold Derives at h ⊢
  rw [hold] at h
  obtain ⟨before, after, htext, hbefore, hafter⟩ := h.split
  refine ⟨before, after, htext, ?_⟩
  rw [hnew, String.toList_ofList]
  exact hbefore.append_line (hinserted.append_line hafter)

/-! ## What the package block denies -/

/-- Nothing but a block without class blocks denies a package. -/
theorem deniesPackage_rule {b : PackageBlock} (hne : b.classes ≠ []) (package : String) :
    b.rule.deniesPackage package = false := by
  cases h : b.rule.deniesPackage package with
  | false => rfl
  | true =>
    unfold PackageRule.deniesPackage at h
    rw [Bool.and_eq_true, deniesAll_rule_iff] at h
    exact absurd h.1 hne

theorem deniesMember_grown {sort : MemberSort} {member : String}
    (h : e.block.rule.deniesMember d sort member = true) : e.grown.rule.deniesMember d sort member = true := by
  rw [deniesMember_rule_iff] at h ⊢
  obtain ⟨hcovers, c, hc, hlisted⟩ := h
  refine ⟨hcovers, c, ?_, hlisted⟩
  rcases List.mem_append.1 hc with hc | hc
  · exact List.mem_append_left _ hc
  · exact List.mem_append_right _ (List.mem_cons_of_mem _ hc)

theorem listed_grown (name : String) : listed name (e.front ++ e.added :: e.back) = [] ↔
    listed name (e.front ++ e.back) = [] ∧ (e.added.name = name → e.added.members = []) := by
  by_cases hname : e.added.name = name
  · simp [listed, hname]
    tauto
  · simp [listed, hname]

/-- **What denied a class and does not any more** is undone. -/
theorem undoes_iff (hne : e.front ++ e.back ≠ []) :
    e.block.rule.deniesClass d = true ∧ e.grown.rule.deniesClass d = false ↔ e.Undoes d := by
  have hcovers : e.block.rule.covers d.package = Rule.covers e.pattern.toList d.package.toList := rfl
  have hcovers' : e.grown.rule.covers d.package = Rule.covers e.pattern.toList d.package.toList := rfl
  rw [← Bool.not_eq_true, deniesClass_rule_iff, deniesClass_rule_iff, hcovers, hcovers']
  simp only [block, grown, listed_grown]
  constructor
  · rintro ⟨⟨hcovers, hclasses⟩, hnot⟩
    obtain ⟨hnamed, hbare⟩ := hclasses.resolve_left hne
    have hnamed' : d.name ∈ (e.front ++ e.added :: e.back).map (·.name) := by
      simp only [List.map_append, List.map_cons, List.mem_append, List.mem_cons] at hnamed ⊢
      tauto
    have hlists : ¬(e.added.name = d.name → e.added.members = []) := fun h =>
      hnot ⟨hcovers, .inr ⟨hnamed', hbare, h⟩⟩
    exact ⟨hcovers, hnamed, hbare, (Classical.not_imp.1 hlists).1, (Classical.not_imp.1 hlists).2⟩
  · intro h
    refine ⟨⟨h.covers, .inr ⟨h.named, h.bare⟩⟩, ?_⟩
    rintro ⟨-, hnil | ⟨-, -, hmembers⟩⟩
    · simp at hnil
    · exact h.members (hmembers h.again)

/-! ## What a policy shows -/

/-- Rules deny what that of one package block denies, and what those of the others do. -/
theorem any_rules (before after : List PackageBlock) (b : PackageBlock) (f : PackageRule → Bool) :
    ((before ++ b :: after).map PackageBlock.rule).any f =
      ((before ++ after).any (fun b => f b.rule) || f b.rule) := by
  simp [List.any_append, List.any_map, Function.comp_def, Bool.or_comm, Bool.or_left_comm]

section Policies

variable {p : Policy}

/-- **The classes that come back** are those that the new class block reopens. -/
theorem reopens_iff (hne : e.front ++ e.back ≠ []) :
    (p.narrow (e.old.map PackageBlock.rule)).allowsClass d = false ∧
      (p.narrow (e.new.map PackageBlock.rule)).allowsClass d = true ↔ e.Reopens p d := by
  unfold Policy.allowsClass
  rw [Policy.showsClass_narrow, Policy.showsClass_narrow, old, new, any_rules, any_rules]
  constructor
  · rintro ⟨hold, hnew⟩
    simp only [Bool.or_eq_false_iff, Bool.and_eq_false_iff, Bool.not_eq_false', Bool.or_eq_true, Bool.and_eq_true,
      Bool.not_eq_true', Bool.or_eq_false_iff] at hold hnew
    obtain ⟨hplain, hold⟩ := hold
    obtain ⟨hshown, halone, hgrown⟩ := hnew.resolve_left (by simp [hplain])
    have hblock : e.block.rule.deniesClass d = true := by
      rcases hold with hhidden | hothers | hblock
      · rw [hshown] at hhidden
        cases hhidden
      · rw [halone] at hothers
        cases hothers
      · exact hblock
    have hothers : ∀ b ∈ e.before ++ e.after, b.rule.deniesClass d = false := fun b hb => by
      simpa using List.any_eq_false.1 halone b hb
    exact ⟨hplain, hshown, hothers, (undoes_iff hne).1 ⟨hblock, hgrown⟩⟩
  · intro h
    have halone : (e.before ++ e.after).any (fun b => b.rule.deniesClass d) = false := by
      rw [List.any_eq_false]
      intro b hb
      simp [h.alone b hb]
    obtain ⟨hblock, hgrown⟩ := (undoes_iff hne).2 h.undone
    rw [h.plain, h.shown, halone, hblock, hgrown]
    exact ⟨rfl, rfl⟩

/-- **Without a class that comes back, the policy shows less.** -/
theorem showsLess_iff (hne : e.front ++ e.back ≠ []) :
    (p.narrow (e.new.map PackageBlock.rule)).ShowsLess (p.narrow (e.old.map PackageBlock.rule)) ↔
      ∀ d, ¬e.Reopens p d := by
  constructor
  · intro h d hd
    obtain ⟨hold, hnew⟩ := (reopens_iff hne).2 hd
    rw [h.cls d hnew] at hold
    cases hold
  · intro h
    apply Policy.ShowsLess.of_classes
    · -- neither package block denies its packages
      intro name hname
      rw [Policy.allowsPackage_narrow, new, any_rules, deniesPackage_rule (by simp [grown])] at hname
      rw [Policy.allowsPackage_narrow, old, any_rules, deniesPackage_rule hne]
      exact hname
    · intro d hnew
      by_contra hold
      exact h d ((reopens_iff hne).1 ⟨by simpa using hold, hnew⟩)
    · intro d sort name hold
      rw [Policy.deniesMember_narrow, old, any_rules, Bool.or_eq_true, Bool.or_eq_true] at hold
      rw [Policy.deniesMember_narrow, new, any_rules, Bool.or_eq_true, Bool.or_eq_true]
      exact hold.imp_right fun hrules => hrules.imp_right deniesMember_grown

end Policies

end Insertion

/-- **One more class block.** Take a text and a package block of it that has class blocks. Another class block can be
put in between, in front of, or behind them; and whichever way that is written, the policy with the new text denied
shows less than the one with the old text denied if the new block reopens no class. Otherwise the classes that it
reopens come back, and no others. -/
theorem compose_insert (p : Policy) (e : Insertion) (hne : e.front ++ e.back ≠ []) {text : String}
    (h : Derives text e.old) :
    (∀ inserted : String, Lexes inserted.toList e.added.tokens → ∃ before after, text.toList = before ++ after ∧
      Derives (String.ofList (before ++ '\n' :: (inserted.toList ++ '\n' :: after))) e.new) ∧
    ∀ text', Derives text' e.new → ∃ q q', p.compose text = .ok q ∧ p.compose text' = .ok q' ∧
      (q'.ShowsLess q ↔ ∀ d, ¬e.Reopens p d) ∧
      ∀ d, q.allowsClass d = false ∧ q'.allowsClass d = true ↔ e.Reopens p d := by
  refine ⟨fun inserted => Insertion.derives_new h, fun text' h' => ?_⟩
  exact ⟨_, _, Policy.compose_eq_ok.2 ⟨_, readRules_eq_ok_iff.2 ⟨_, h, rfl⟩, rfl⟩,
    Policy.compose_eq_ok.2 ⟨_, readRules_eq_ok_iff.2 ⟨_, h', rfl⟩, rfl⟩, Insertion.showsLess_iff hne,
    fun d => Insertion.reopens_iff hne⟩

/-- A block for a class of its own reopens nothing. -/
theorem compose_insert_person :
    let e : Insertion := ⟨[], "app", [], ⟨"Person", [⟨.field, "name"⟩]⟩, [⟨"Secret", []⟩], []⟩
    e.front ++ e.back ≠ [] ∧ Derives "app { Secret { } }" e.old ∧ Derives "app { Person { name; } Secret { } }" e.new ∧
      ∃ q q', Policy.unrestricted.compose "app { Secret { } }" = .ok q ∧
        Policy.unrestricted.compose "app { Person { name; } Secret { } }" = .ok q' ∧ q'.ShowsLess q := by
  intro e
  have hne : e.front ++ e.back ≠ [] := by decide
  have hold : Derives "app { Secret { } }" e.old := scan_finish_iff.1 ⟨_, _, rfl, rfl⟩
  have hnew : Derives "app { Person { name; } Secret { } }" e.new := scan_finish_iff.1 ⟨_, _, rfl, rfl⟩
  obtain ⟨q, q', hq, hq', hless, -⟩ := (compose_insert .unrestricted e hne hold).2 _ hnew
  refine ⟨hne, hold, hnew, q, q', hq, hq', hless.2 fun d hd => ?_⟩
  -- no other block names the class
  have hnamed := hd.undone.named
  rw [← hd.undone.again] at hnamed
  exact absurd hnamed (by decide)

/-- A class is denied, and comes back when one of its fields is denied as well. -/
theorem not_compose_insert :
    ¬∀ (p : Policy) (e : Insertion) (text text' : String) (q q' : Policy), e.front ++ e.back ≠ [] →
      Derives text e.old → Derives text' e.new → p.compose text = .ok q → p.compose text' = .ok q' →
      q'.ShowsLess q := by
  intro h
  let e : Insertion := ⟨[], "app", [⟨"Secret", []⟩], ⟨"Secret", [⟨.field, "key"⟩]⟩, [], []⟩
  let secret : ClassDef := .ofDecl ⟨19⟩ (.ofName "app.Secret")
  let rules (key : List String) : List PackageRule := [⟨"app", [("Secret", { fields := key })]⟩]
  have hold : Derives "app { Secret { } }" e.old := scan_finish_iff.1 ⟨_, _, rfl, rfl⟩
  have hnew : Derives "app { Secret { } Secret { key; } }" e.new := scan_finish_iff.1 ⟨_, _, rfl, rfl⟩
  have hless := h .unrestricted e _ _ (.narrowed .unrestricted (rules [])) (.narrowed .unrestricted (rules ["key"]))
    (by decide) hold hnew rfl rfl
  obtain ⟨hdenied, hallowed⟩ : (Policy.narrowed .unrestricted (rules [])).allowsClass secret = false ∧
      (Policy.narrowed .unrestricted (rules ["key"])).allowsClass secret = true := by decide +kernel
  rw [hless.cls secret hallowed] at hdenied
  cases hdenied

end MemberAccess.Rule
