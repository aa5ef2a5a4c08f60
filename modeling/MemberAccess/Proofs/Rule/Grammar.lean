import Mathlib.Data.List.Forall2
import Mathlib.Data.List.Induction
import Mathlib.Data.List.Nodup
import Mathlib.Tactic.ByContra
import MemberAccess.Proofs.Policy.Layers
import MemberAccess.Proofs.Rule.Lexing

/-!
# The grammar of rule texts

A syntax tree of the grammar

    rules  := (NAME '{' class* '}')*
    class  := NAME '{' member* '}'
    member := NAME ';' | NAME '(' ')' ';'

is a list of package blocks; it has its tokens, and a meaning that no reading is needed for.

* `PackageBlock.tokens`, `PackageBlock.rule`: the tokens of a block, and its rule.
* `steps_blocks`: the tokens of blocks lead from the outside to the outside, with the rules of the blocks.
* `Place.Consumed`: which tokens lead to a place; `Reading.Consumed.step` keeps it, token by token.
* `steps_outside_iff`: the tokens that lead back to the outside are those of blocks.
* `PackageBlock.denotes_rule`: what the rule of a block denies is what the block says.
* `compose_grammar`: a policy takes the texts of the grammar and no others, with what they say denied.
-/

namespace MemberAccess.Rule

/-! ## Blocks -/

/-- A member in a class block. -/
structure Entry where
  sort : MemberSort
  name : String
deriving DecidableEq

structure ClassBlock where
  name : String
  members : List Entry
deriving DecidableEq

structure PackageBlock where
  pattern : String
  classes : List ClassBlock
deriving DecidableEq

def Entry.tokens : Entry → List Token
  | ⟨.field, name⟩ => [.name name, .semicolon]
  | ⟨.method, name⟩ => [.name name, .leftParen, .rightParen, .semicolon]

def ClassBlock.tokens (b : ClassBlock) : List Token :=
  .name b.name :: .opening :: (b.members.flatMap Entry.tokens ++ [.closing])

def PackageBlock.tokens (b : PackageBlock) : List Token :=
  .name b.pattern :: .opening :: (b.classes.flatMap ClassBlock.tokens ++ [.closing])

/-- A text derives from the grammar, as the text of some package blocks. -/
def Derives (text : String) (blocks : List PackageBlock) : Prop :=
  Lexes text.toList (blocks.flatMap PackageBlock.tokens)

/-- What a class block adds to the classes before it. -/
def ClassRules.addBlock (classes : ClassRules) (b : ClassBlock) : ClassRules :=
  b.members.foldl (fun classes e => classes.add b.name e.sort e.name) (classes.enter b.name)

/-- The classes of blocks, those of one name added up. -/
def ClassRules.ofBlocks (blocks : List ClassBlock) : ClassRules := blocks.foldl ClassRules.addBlock []

def PackageBlock.rule (b : PackageBlock) : PackageRule := ⟨b.pattern, .ofBlocks b.classes⟩

/-! ## Reading the tokens of blocks -/

/-- Where tokens lead, if they all fit. -/
def Reading.steps (s : Reading) (ts : List Token) : Option Reading := ts.foldlM Reading.step s

variable {s s' : Reading} {t : Token} {ts : List Token} {rules done : List PackageRule} {pattern : String}
  {classes : ClassRules} {name : String}

theorem steps_append (s : Reading) (ts us : List Token) :
    s.steps (ts ++ us) = (s.steps ts).bind (·.steps us) := List.foldlM_append

theorem steps_cons (h : s.step t = some s') : s.steps (t :: ts) = s'.steps ts := by
  unfold Reading.steps
  rw [List.foldlM_cons, h]
  rfl

theorem steps_of_append {us : List Token} (h : s.steps ts = some s') : s.steps (ts ++ us) = s'.steps us := by
  rw [steps_append, h, Option.bind_some]

theorem steps_entry (done : List PackageRule) (pattern : String) (classes : ClassRules) (name : String)
    (e : Entry) : Reading.steps ⟨done, .inClass pattern classes name⟩ e.tokens =
      some ⟨done, .inClass pattern (classes.add name e.sort e.name) name⟩ := by
  obtain ⟨sort, member⟩ := e
  cases sort <;> rfl

theorem steps_members (done : List PackageRule) (pattern : String) (classes : ClassRules) (name : String)
    (members : List Entry) : Reading.steps ⟨done, .inClass pattern classes name⟩ (members.flatMap Entry.tokens) =
      some ⟨done, .inClass pattern (members.foldl (fun cs e => cs.add name e.sort e.name) classes) name⟩ := by
  induction members generalizing classes with
  | nil => rfl
  | cons e rest ih =>
    rw [List.flatMap_cons, steps_of_append (steps_entry ..), ih]
    rfl

theorem steps_class (done : List PackageRule) (pattern : String) (classes : ClassRules) (b : ClassBlock) :
    Reading.steps ⟨done, .inPackage pattern classes⟩ b.tokens =
      some ⟨done, .inPackage pattern (classes.addBlock b)⟩ := by
  unfold ClassBlock.tokens
  rw [steps_cons rfl, steps_cons rfl, steps_of_append (steps_members ..)]
  rfl

theorem steps_classes (done : List PackageRule) (pattern : String) (classes : ClassRules)
    (blocks : List ClassBlock) :
    Reading.steps ⟨done, .inPackage pattern classes⟩ (blocks.flatMap ClassBlock.tokens) =
      some ⟨done, .inPackage pattern (blocks.foldl ClassRules.addBlock classes)⟩ := by
  induction blocks generalizing classes with
  | nil => rfl
  | cons b rest ih =>
    rw [List.flatMap_cons, steps_of_append (steps_class ..), ih]
    rfl

theorem steps_package (done : List PackageRule) (b : PackageBlock) :
    Reading.steps ⟨done, .outside⟩ b.tokens = some ⟨done ++ [b.rule], .outside⟩ := by
  unfold PackageBlock.tokens
  rw [steps_cons rfl, steps_cons rfl, steps_of_append (steps_classes ..)]
  rfl

/-- **The tokens of blocks lead from the outside to the outside**, with the rules of the blocks in order. -/
theorem steps_blocks (done : List PackageRule) (blocks : List PackageBlock) :
    Reading.steps ⟨done, .outside⟩ (blocks.flatMap PackageBlock.tokens) =
      some ⟨done ++ blocks.map PackageBlock.rule, .outside⟩ := by
  induction blocks generalizing done with
  | nil => simp [Reading.steps]
  | cons b rest ih =>
    rw [List.flatMap_cons, steps_of_append (steps_package ..), ih, List.map_cons, List.append_assoc,
      List.singleton_append]

/-! ## Which tokens lead to a place -/

/-- The tokens of a package block that is open, with the class blocks it has so far. -/
def openPackage (pattern : String) (blocks : List ClassBlock) : List Token :=
  .name pattern :: .opening :: blocks.flatMap ClassBlock.tokens

/-- The tokens of a class block that is open, with the members it has so far. -/
def openClass (name : String) (members : List Entry) : List Token :=
  .name name :: .opening :: members.flatMap Entry.tokens

/-- The tokens that were read of an unfinished package block lead to a place. -/
def Place.Consumed : Place → List Token → Prop
  | .outside, ts => ts = []
  | .packageNamed pattern, ts => ts = [.name pattern]
  | .inPackage pattern classes, ts =>
    ∃ blocks : List ClassBlock, classes = .ofBlocks blocks ∧ ts = openPackage pattern blocks
  | .classNamed pattern classes name, ts =>
    ∃ blocks : List ClassBlock, classes = .ofBlocks blocks ∧ ts = openPackage pattern blocks ++ [.name name]
  | .inClass pattern classes name, ts => ∃ (blocks : List ClassBlock) (members : List Entry),
    classes = .ofBlocks (blocks ++ [⟨name, members⟩]) ∧ ts = openPackage pattern blocks ++ openClass name members
  | .memberNamed pattern classes name member, ts => ∃ (blocks : List ClassBlock) (members : List Entry),
    classes = .ofBlocks (blocks ++ [⟨name, members⟩]) ∧
      ts = openPackage pattern blocks ++ openClass name members ++ [.name member]
  | .inParens pattern classes name member, ts => ∃ (blocks : List ClassBlock) (members : List Entry),
    classes = .ofBlocks (blocks ++ [⟨name, members⟩]) ∧
      ts = openPackage pattern blocks ++ openClass name members ++ [.name member, .leftParen]
  | .afterParens pattern classes name member, ts => ∃ (blocks : List ClassBlock) (members : List Entry),
    classes = .ofBlocks (blocks ++ [⟨name, members⟩]) ∧
      ts = openPackage pattern blocks ++ openClass name members ++ [.name member, .leftParen, .rightParen]

/-- The tokens read so far are those of the finished blocks, and some that lead to the place. -/
def Reading.Consumed (s : Reading) (ts : List Token) : Prop :=
  ∃ (blocks : List PackageBlock) (unfinished : List Token), s.done = blocks.map PackageBlock.rule ∧
    s.place.Consumed unfinished ∧ ts = blocks.flatMap PackageBlock.tokens ++ unfinished

theorem ofBlocks_append_singleton (blocks : List ClassBlock) (b : ClassBlock) :
    ClassRules.ofBlocks (blocks ++ [b]) = (ClassRules.ofBlocks blocks).addBlock b := by
  simp [ClassRules.ofBlocks]

theorem addBlock_append_entry (classes : ClassRules) (name : String) (members : List Entry) (e : Entry) :
    classes.addBlock ⟨name, members ++ [e]⟩ = (classes.addBlock ⟨name, members⟩).add name e.sort e.name := by
  simp [ClassRules.addBlock]

theorem openPackage_append (pattern : String) (blocks : List ClassBlock) (b : ClassBlock) :
    openPackage pattern (blocks ++ [b]) = openPackage pattern blocks ++ b.tokens := by
  simp [openPackage]

theorem openClass_append (name : String) (members : List Entry) (e : Entry) :
    openClass name (members ++ [e]) = openClass name members ++ e.tokens := by
  simp [openClass]

/-- A token that fits leads further into a package block, or ends it. -/
theorem Place.Consumed.step {place : Place} (hplace : place.Consumed ts)
    (h : Reading.step ⟨done, place⟩ t = some s') :
    (s'.done = done ∧ s'.place.Consumed (ts ++ [t])) ∨
      ∃ block : PackageBlock, s' = ⟨done ++ [block.rule], .outside⟩ ∧ ts ++ [t] = block.tokens := by
  cases place with
  | outside =>
    subst hplace
    cases t with
    | name pattern =>
      cases h
      exact .inl ⟨rfl, rfl⟩
    | _ => cases h
  | packageNamed pattern =>
    subst hplace
    cases t with
    | opening =>
      cases h
      exact .inl ⟨rfl, [], rfl, rfl⟩
    | _ => cases h
  | inPackage pattern classes =>
    obtain ⟨blocks, rfl, rfl⟩ := hplace
    cases t with
    | closing =>
      cases h
      exact .inr ⟨⟨pattern, blocks⟩, rfl, rfl⟩
    | name name =>
      cases h
      exact .inl ⟨rfl, blocks, rfl, rfl⟩
    | _ => cases h
  | classNamed pattern classes name =>
    obtain ⟨blocks, rfl, rfl⟩ := hplace
    cases t with
    | opening =>
      cases h
      refine .inl ⟨rfl, blocks, [], ?_, ?_⟩
      · rw [ofBlocks_append_singleton]
        rfl
      · simp [openClass]
    | _ => cases h
  | inClass pattern classes name =>
    obtain ⟨blocks, members, rfl, rfl⟩ := hplace
    cases t with
    | closing =>
      cases h
      refine .inl ⟨rfl, blocks ++ [⟨name, members⟩], rfl, ?_⟩
      rw [openPackage_append, List.append_assoc]
      rfl
    | name member =>
      cases h
      exact .inl ⟨rfl, blocks, members, rfl, rfl⟩
    | _ => cases h
  | memberNamed pattern classes name member =>
    obtain ⟨blocks, members, rfl, rfl⟩ := hplace
    cases t with
    | semicolon =>
      cases h
      refine .inl ⟨rfl, blocks, members ++ [⟨.field, member⟩], ?_, ?_⟩
      · rw [ofBlocks_append_singleton, ofBlocks_append_singleton, addBlock_append_entry]
      · simp [openClass_append, Entry.tokens]
    | leftParen =>
      cases h
      exact .inl ⟨rfl, blocks, members, rfl, by simp⟩
    | _ => cases h
  | inParens pattern classes name member =>
    obtain ⟨blocks, members, rfl, rfl⟩ := hplace
    cases t with
    | rightParen =>
      cases h
      exact .inl ⟨rfl, blocks, members, rfl, by simp⟩
    | _ => cases h
  | afterParens pattern classes name member =>
    obtain ⟨blocks, members, rfl, rfl⟩ := hplace
    cases t with
    | semicolon =>
      cases h
      refine .inl ⟨rfl, blocks, members ++ [⟨.method, member⟩], ?_, ?_⟩
      · rw [ofBlocks_append_singleton, ofBlocks_append_singleton, addBlock_append_entry]
      · simp [openClass_append, Entry.tokens]
    | _ => cases h

theorem Reading.Consumed.step (hs : s.Consumed ts) (h : s.step t = some s') : s'.Consumed (ts ++ [t]) := by
  obtain ⟨finished, unfinished, hdone, hplace, rfl⟩ := hs
  rcases hplace.step h with ⟨hsame, hnext⟩ | ⟨block, rfl, hblock⟩
  · exact ⟨finished, unfinished ++ [t], hsame.trans hdone, hnext, List.append_assoc ..⟩
  · refine ⟨finished ++ [block], [], by simp [hdone], rfl, ?_⟩
    rw [List.append_assoc, hblock]
    simp

theorem Reading.Consumed.steps {us : List Token} (hs : s.Consumed ts) (h : s.steps us = some s') :
    s'.Consumed (ts ++ us) := by
  induction us generalizing s ts with
  | nil =>
    cases h
    rwa [List.append_nil]
  | cons u rest ih =>
    unfold Reading.steps at h
    rw [List.foldlM_cons, Option.bind_eq_bind, Option.bind_eq_some_iff] at h
    obtain ⟨next, hstep, hrest⟩ := h
    have := ih (hs.step hstep) hrest
    rwa [List.append_assoc, List.singleton_append] at this

/-- **The tokens that lead back to the outside are those of blocks.** -/
theorem steps_outside_iff : Reading.steps {} ts = some ⟨rules, .outside⟩ ↔
    ∃ blocks : List PackageBlock, ts = blocks.flatMap PackageBlock.tokens ∧
      rules = blocks.map PackageBlock.rule := by
  constructor
  · intro h
    have hstart : Reading.Consumed {} [] := ⟨[], [], rfl, rfl, rfl⟩
    obtain ⟨blocks, unfinished, hdone, hplace, hts⟩ := hstart.steps h
    rw [List.nil_append, hplace, List.append_nil] at hts
    exact ⟨blocks, hts, hdone⟩
  · rintro ⟨blocks, rfl, rfl⟩
    exact steps_blocks [] blocks

/-- Reading on succeeds when the scan ended with the text and all tokens lead to the outside. -/
theorem run_eq_ok_iff {ending : Ending} {lexemes : List Lexeme} : s.run ending lexemes = .ok rules ↔
    (∃ q, ending = .finish q) ∧ s.steps (lexemes.map (·.token)) = some ⟨rules, .outside⟩ := by
  induction lexemes generalizing s with
  | nil =>
    obtain ⟨done, place⟩ := s
    cases ending with
    | broken p f => simp [Reading.run]
    | finish q => cases place <;> simp [Reading.run, Reading.steps]
  | cons l rest ih =>
    unfold Reading.run
    cases hstep : s.step l.token with
    | none => simp [Reading.steps, hstep]
    | some next =>
      rw [List.map_cons, steps_cons hstep]
      exact ih

/-- A text is read when it derives from the grammar, as the rules of its blocks. -/
theorem readRules_eq_ok_iff {text : String} : readRules text = .ok rules ↔
    ∃ blocks, Derives text blocks ∧ rules = blocks.map PackageBlock.rule := by
  unfold readRules Derives
  simp only [run_eq_ok_iff, steps_outside_iff, ← scan_finish_iff]
  constructor
  · rintro ⟨⟨q, hending⟩, blocks, hts, rfl⟩
    exact ⟨blocks, ⟨_, q, Prod.ext rfl hending, hts⟩, rfl⟩
  · rintro ⟨blocks, ⟨lexemes, q, hscan, hts⟩, rfl⟩
    rw [hscan]
    exact ⟨⟨q, rfl⟩, blocks, hts, rfl⟩

/-! ## What the rule of a block denies -/

/-- The members that blocks list for a class, all its blocks together. -/
def listed (name : String) (blocks : List ClassBlock) : List Entry :=
  (blocks.filter (·.name = name)).flatMap (·.members)

/-- A class rule with more members denied. -/
def ClassRule.addAll (r : ClassRule) (es : List Entry) : ClassRule := es.foldl (fun r e => r.add e.sort e.name) r

theorem denies_add {r : ClassRule} {e : Entry} {sort : MemberSort} {member : String} :
    (r.add e.sort e.name).denies sort member = true ↔ r.denies sort member = true ∨ ⟨sort, member⟩ = e := by
  obtain ⟨sort', member'⟩ := e
  cases sort <;> cases sort' <;> simp [ClassRule.add, ClassRule.denies]

theorem denies_addAll {r : ClassRule} {es : List Entry} {sort : MemberSort} {member : String} :
    (r.addAll es).denies sort member = true ↔ r.denies sort member = true ∨ ⟨sort, member⟩ ∈ es := by
  induction es generalizing r with
  | nil => simp [ClassRule.addAll]
  | cons e rest ih =>
    have hstep : (r.addAll (e :: rest)) = (r.add e.sort e.name).addAll rest := rfl
    rw [hstep, ih, denies_add, List.mem_cons, or_assoc]

/-- Members add up to nothing only when there are none. -/
theorem deniesAll_addAll {es : List Entry} : (ClassRule.addAll {} es).deniesAll = true ↔ es = [] := by
  constructor
  · intro h
    by_contra hne
    obtain ⟨⟨sort, member⟩, hmem⟩ := List.exists_mem_of_ne_nil es hne
    have hdenied := (denies_addAll (r := {})).2 (.inr hmem)
    simp only [ClassRule.deniesAll, Bool.and_eq_true, List.isEmpty_iff] at h
    cases sort <;> simp [ClassRule.denies, h] at hdenied
  · rintro rfl
    rfl

theorem get?_addBlock (classes : ClassRules) (b : ClassBlock) (name : String) :
    Assoc.get? name (classes.addBlock b) =
      if b.name = name then some ((classes.of name).addAll b.members) else Assoc.get? name classes := by
  have hfold (members : List Entry) (r : ClassRule) (classes : ClassRules)
      (hr : Assoc.get? b.name classes = some r) :
      Assoc.get? name (members.foldl (fun classes e => ClassRules.add classes b.name e.sort e.name) classes) =
        if b.name = name then some (r.addAll members) else Assoc.get? name classes := by
    induction members generalizing r classes with
    | nil =>
      split
      · rename_i hname
        exact hname ▸ hr
      · rfl
    | cons e rest ih =>
      have hadd : Assoc.get? b.name (classes.add b.name e.sort e.name) = some (r.add e.sort e.name) := by
        simp [ClassRules.add, ClassRules.of, Assoc.get?_put, hr]
      rw [List.foldl_cons, ih _ _ hadd]
      split
      · rfl
      · rename_i hname
        rw [ClassRules.add, Assoc.get?_put, if_neg hname]
  have henter (n : String) : Assoc.get? n (classes.enter b.name) =
      if b.name = n then some (classes.of b.name) else Assoc.get? n classes := Assoc.get?_put ..
  rw [ClassRules.addBlock, hfold b.members (classes.of b.name) _ (by rw [henter, if_pos rfl])]
  split
  · rename_i hname
    rw [hname]
  · rename_i hname
    rw [henter, if_neg hname]

/-- **Blocks of one class add up.** A class has a rule when some block names it, with all that its blocks list. -/
theorem get?_ofBlocks (blocks : List ClassBlock) (name : String) :
    Assoc.get? name (ClassRules.ofBlocks blocks) =
      if name ∈ blocks.map (·.name) then some (ClassRule.addAll {} (listed name blocks)) else none := by
  induction blocks using List.reverseRecOn with
  | nil => rfl
  | append_singleton blocks b ih =>
    have hof : (ClassRules.ofBlocks blocks).of name = ClassRule.addAll {} (listed name blocks) := by
      unfold ClassRules.of
      rw [ih]
      split
      · rfl
      · rename_i hnot
        -- no block names the class, and none lists anything for it
        have hnone : blocks.filter (·.name = name) = [] := by
          rw [List.filter_eq_nil_iff]
          intro c hc hname
          exact hnot (List.mem_map.2 ⟨c, hc, of_decide_eq_true hname⟩)
        simp [listed, hnone, ClassRule.addAll]
    rw [ofBlocks_append_singleton, get?_addBlock, hof, ih]
    by_cases hname : b.name = name
    · simp [hname, listed, ClassRule.addAll]
    · simp [hname, listed, Ne.symm hname]

variable {b : PackageBlock} {d : ClassDef}

theorem deniesAll_rule_iff : b.rule.deniesAll = true ↔ b.classes = [] := by
  constructor
  · intro h
    cases hclasses : b.classes with
    | nil => rfl
    | cons c rest =>
      have hsome := get?_ofBlocks (c :: rest) c.name
      have hnil : ClassRules.ofBlocks (c :: rest) = [] := by
        rw [← hclasses]
        exact List.isEmpty_iff.1 h
      rw [hnil, if_pos (by simp)] at hsome
      cases hsome
  · intro h
    simp [PackageBlock.rule, PackageRule.deniesAll, h, ClassRules.ofBlocks]

/-- A class is denied when nothing is listed in its package, or nothing in all its blocks. -/
theorem deniesClass_rule_iff : b.rule.deniesClass d = true ↔ b.rule.covers d.package = true ∧
    (b.classes = [] ∨ (d.name ∈ b.classes.map (·.name) ∧ listed d.name b.classes = [])) := by
  unfold PackageRule.deniesClass
  rw [Bool.and_eq_true, Bool.or_eq_true, deniesAll_rule_iff]
  have hget := get?_ofBlocks b.classes d.name
  unfold PackageBlock.rule
  rw [hget]
  split
  · rename_i hnamed
    simp [deniesAll_addAll, hnamed]
  · rename_i hnamed
    simp [hnamed]

theorem mem_listed {name : String} {blocks : List ClassBlock} {e : Entry} :
    e ∈ listed name blocks ↔ ∃ c ∈ blocks, c.name = name ∧ e ∈ c.members := by
  simp [listed, and_assoc]

/-- A member is denied when some block of its class lists it. -/
theorem deniesMember_rule_iff {sort : MemberSort} {member : String} :
    b.rule.deniesMember d sort member = true ↔ b.rule.covers d.package = true ∧
      ∃ c ∈ b.classes, c.name = d.name ∧ ⟨sort, member⟩ ∈ c.members := by
  rw [← mem_listed]
  unfold PackageRule.deniesMember
  rw [Bool.and_eq_true]
  have hget := get?_ofBlocks b.classes d.name
  have hnothing : ClassRule.denies {} sort member = false := by cases sort <;> rfl
  unfold PackageBlock.rule
  rw [hget]
  split
  · simp [denies_addAll, hnothing]
  · rename_i hnamed
    have hnone : ⟨sort, member⟩ ∉ listed d.name b.classes := by
      rw [mem_listed]
      rintro ⟨c, hc, hname, -⟩
      exact hnamed (List.mem_map.2 ⟨c, hc, hname⟩)
    simp [hnone]

/-- When no class has two blocks, nothing is listed for a class exactly when its block is empty. -/
theorem named_and_listed_nil_iff {name : String} {blocks : List ClassBlock}
    (hnodup : (blocks.map (·.name)).Nodup) :
    name ∈ blocks.map (·.name) ∧ listed name blocks = [] ↔ ⟨name, []⟩ ∈ blocks := by
  constructor
  · rintro ⟨hnamed, hlisted⟩
    obtain ⟨⟨name', members⟩, hc, rfl⟩ := List.mem_map.1 hnamed
    have hmembers : members = [] := by
      rw [List.eq_nil_iff_forall_not_mem] at hlisted ⊢
      exact fun e he => hlisted e (mem_listed.2 ⟨_, hc, rfl, he⟩)
    exact hmembers ▸ hc
  · intro hmem
    refine ⟨List.mem_map.2 ⟨_, hmem, rfl⟩, ?_⟩
    rw [List.eq_nil_iff_forall_not_mem]
    intro e he
    obtain ⟨c, hc, hname, he⟩ := mem_listed.1 he
    have hsame : c = ⟨name, []⟩ := List.inj_on_of_nodup_map hnodup hc hmem hname
    rw [hsame] at he
    cases he

/-- A rule denies exactly what a package block says, in the packages that it covers: the whole package when
there are no class blocks, the whole class for one without members, and the listed members. -/
structure PackageBlock.Denotes (b : PackageBlock) (r : PackageRule) : Prop where
  package : ∀ package, r.deniesPackage package = true ↔ r.covers package = true ∧ b.classes = []
  cls : ∀ d, r.deniesClass d = true ↔
    r.covers d.package = true ∧ (b.classes = [] ∨ ⟨d.name, []⟩ ∈ b.classes)
  member : ∀ d sort member, r.deniesMember d sort member = true ↔
    r.covers d.package = true ∧ ∃ c ∈ b.classes, c.name = d.name ∧ ⟨sort, member⟩ ∈ c.members

theorem PackageBlock.denotes_rule (hnodup : (b.classes.map (·.name)).Nodup) : b.Denotes b.rule where
  package package := by
    rw [PackageRule.deniesPackage, Bool.and_eq_true, deniesAll_rule_iff, and_comm]
  cls d := by
    rw [deniesClass_rule_iff, named_and_listed_nil_iff hnodup]
  member _ _ _ := deniesMember_rule_iff

/-- A rule is that of a package block: it has its pattern, and when no class is named twice in the block, it
denies what the block says. -/
def PackageBlock.Means (b : PackageBlock) (r : PackageRule) : Prop :=
  r.pattern = b.pattern ∧ ((b.classes.map (·.name)).Nodup → b.Denotes r)

/-- **Rule texts are the texts of the grammar.** A policy takes a text exactly when it derives from the grammar,
and then denies one rule for each package block, in order, which is that of the block. No text has more tokens
than characters, and reading takes each of them once. -/
theorem compose_grammar (p : Policy) (text : String) :
    ((∃ q, p.compose text = .ok q) ↔ ∃ blocks, Derives text blocks) ∧
    (∀ blocks, Derives text blocks → ∃ rules, readRules text = .ok rules ∧
      p.compose text = .ok (p.narrow rules) ∧ List.Forall₂ PackageBlock.Means blocks rules) ∧
    (scan text).1.length ≤ text.length := by
  have hread : ∀ blocks, Derives text blocks → readRules text = .ok (blocks.map PackageBlock.rule) :=
    fun blocks h => readRules_eq_ok_iff.2 ⟨blocks, h, rfl⟩
  refine ⟨⟨?_, ?_⟩, ?_, length_scan_le text⟩
  · rintro ⟨q, hq⟩
    obtain ⟨rules, hrules, -⟩ := Policy.compose_eq_ok.1 hq
    obtain ⟨blocks, hblocks, -⟩ := readRules_eq_ok_iff.1 hrules
    exact ⟨blocks, hblocks⟩
  · rintro ⟨blocks, hblocks⟩
    exact ⟨_, Policy.compose_eq_ok.2 ⟨_, hread blocks hblocks, rfl⟩⟩
  · intro blocks hblocks
    refine ⟨_, hread blocks hblocks, Policy.compose_eq_ok.2 ⟨_, hread blocks hblocks, rfl⟩, ?_⟩
    rw [List.forall₂_map_right_iff, List.forall₂_same]
    exact fun b _ => ⟨rfl, b.denotes_rule⟩

/-- A text with a comment, listed members and an empty package block. -/
def redaction : String := "app.* { Person { name; wipe(); } } // below it\nold {}"

theorem compose_grammar_redaction :
    let blocks : List PackageBlock :=
      [⟨"app.*", [⟨"Person", [⟨.field, "name"⟩, ⟨.method, "wipe"⟩]⟩]⟩, ⟨"old", []⟩]
    Derives redaction blocks ∧ ∃ rules, readRules redaction = .ok rules ∧
      Policy.unrestricted.compose redaction = .ok (Policy.unrestricted.narrow rules) ∧
      List.Forall₂ PackageBlock.Means blocks rules := by
  intro blocks
  have hderives : Derives redaction blocks := scan_finish_iff.1 ⟨_, _, rfl, rfl⟩
  exact ⟨hderives, (compose_grammar .unrestricted redaction).2.1 blocks hderives⟩

end MemberAccess.Rule
