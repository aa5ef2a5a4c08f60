import Mathlib.Algebra.GroupWithZero.Nat
import MemberAccess.Proofs.Firsts
import MemberAccess.Proofs.Overload.Subtyping

/-!
# Candidates with the same parameters

A choice may be made among all candidates, or so that of those with the same parameters up to boxing the first one
counts and the one that declares the types of the arguments is taken. The two come to the same for most calls. They
differ where a call could go to two candidates for as little as any call with these arguments can cost, and where only
a later one of several with the same parameters can be called. Costs that are carried out of 32 bits can come below
that, and then ranking passes over the one that declares the types.

* `conversionCost_eq_zero_iff`: what costs nothing.
* `Suiting`, `conversionCosts_eq_least_iff`: what costs as little as any call with the same arguments can.
* `Floored`: no candidate comes below that. So it is where the costs fit, and where no argument is `null`.
* `settle`: the choice in which the first ones count; `settle_map`: of candidates under another form.
* `settle_eq_none`, `settle_eq_one_iff`, `settle_eq_tie_iff`: what it comes to where all candidates are ranked.
* `agrees_of_declared`, `declared_of_agrees`: candidates for which there is no difference whatever the call.
* `Apart`, `apart_of_declared`, `declared_of_apart`: these are kept apart.
-/

namespace MemberAccess

variable {α β : Type} {r : Registry} {params : α → List Ty} {formals actuals : List Ty} {costs : List Nat}
  {candidates : List α} {a b : α}

/-! ## What costs nothing -/

theorem Primitive.widening_eq_zero {p q : Primitive} (h : p.widening q = some 0) : p = q := by
  have hall : ∀ p ∈ Primitive.all, ∀ q ∈ Primitive.all, p.widening q = some 0 → p = q := by decide
  exact hall p p.mem_all q q.mem_all h

/-- A primitive and the class that boxes it are one type at run time. -/
theorem Ty.normalized_of_primitive? {t : Ty} {p : Primitive} (h : t.primitive? = some p) :
    t.normalized = .ofClass p.boxed := by
  cases t with
  | primitive q =>
    cases h
    rfl
  | ofClass c =>
    rw [← Registry.boxes_of_ofBoxed? h]
    rfl
  | null => cases h

/-- **An argument costs nothing** exactly when it has the type of the parameter, up to boxing. `null` always costs
something. -/
theorem conversionCost_eq_zero_iff (r : Registry) (formal actual : Ty) :
    conversionCost r formal actual = some 0 ↔ formal.normalized = actual.normalized ∧ actual ≠ .null := by
  unfold conversionCost
  split
  · rename_i hnull
    have hcost : referenceCost ≠ 0 := by decide
    split <;> simp [hnull, hcost]
  · rename_i hnull
    split
    · rename_i hsame
      simp [hnull, hsame]
    · rename_i hother
      have hno : ¬(formal.normalized = actual.normalized ∧ actual ≠ .null) := fun h => hother h.1
      simp only [hno, iff_false]
      split
      · -- two primitives without a widening step between them would be one type
        rename_i p q hp hq
        intro hzero
        rw [Ty.normalized_of_primitive? hp, Ty.normalized_of_primitive? hq, Primitive.widening_eq_zero hzero] at hother
        exact hother rfl
      · have hreference : referenceCost ≠ 0 := by decide
        split
        · simp
        · split <;> simp [hreference]

/-! ## What costs as little as can be -/

/-- The least that an argument costs, whatever the parameter: `null` is passed as a reference. -/
def Ty.leastCost (actual : Ty) : Nat := if actual = .null then referenceCost else 0

/-- An argument that can be passed for that: `null` for a reference, and otherwise the type of the parameter itself
up to boxing. -/
def Ty.Suits (formal actual : Ty) : Prop :=
  if actual = .null then formal.isPrimitive = false else formal.normalized = actual.normalized

theorem Ty.leastCost_le {formal actual : Ty} {n : Nat} (h : conversionCost r formal actual = some n) :
    actual.leastCost ≤ n := by
  unfold leastCost
  split
  · rename_i hnull
    unfold conversionCost at h
    rw [if_pos hnull] at h
    split at h
    · cases h
    · exact Nat.le_of_eq (Option.some.inj h)
  · exact Nat.zero_le n

theorem Ty.conversionCost_eq_least_iff {formal actual : Ty} :
    conversionCost r formal actual = some actual.leastCost ↔ formal.Suits actual := by
  unfold leastCost Suits
  split
  · rename_i hnull
    unfold conversionCost
    rw [if_pos hnull]
    cases formal.isPrimitive <;> simp
  · rename_i hnull
    rw [conversionCost_eq_zero_iff]
    exact and_iff_left hnull

/-- Every argument suits its parameter. -/
def Suiting (formals actuals : List Ty) : Prop := List.Forall₂ Ty.Suits formals actuals

/-- **Every argument costs the least** exactly when it suits its parameter. -/
theorem conversionCosts_eq_least_iff :
    conversionCosts r formals actuals = some (actuals.map Ty.leastCost) ↔ Suiting formals actuals := by
  unfold Suiting
  induction formals generalizing actuals with
  | nil => cases actuals <;> simp [conversionCosts]
  | cons formal formals ih =>
    cases actuals with
    | nil => simp [conversionCosts]
    | cons actual actuals =>
      rw [List.forall₂_cons, ← ih, ← Ty.conversionCost_eq_least_iff (r := r), conversionCosts_cons_eq_some_iff]
      simp only [List.map_cons, List.cons.injEq]
      constructor
      · rintro ⟨first, rest, hfirst, hrest, rfl, rfl⟩
        exact ⟨hfirst, hrest⟩
      · rintro ⟨hfirst, hrest⟩
        exact ⟨_, _, hfirst, hrest, rfl, rfl⟩

/-- **No arguments cost less**, and only those that suit cost as little. -/
theorem sum_least_le (h : conversionCosts r formals actuals = some costs) :
    (actuals.map Ty.leastCost).sum ≤ costs.sum ∧
      (costs.sum = (actuals.map Ty.leastCost).sum → costs = actuals.map Ty.leastCost) := by
  induction formals generalizing actuals costs with
  | nil =>
    cases actuals with
    | nil =>
      cases h
      exact ⟨Nat.le_refl _, fun _ => rfl⟩
    | cons => cases h
  | cons formal formals ih =>
    cases actuals with
    | nil => cases h
    | cons actual actuals =>
      obtain ⟨first, rest, hfirst, hrest, rfl⟩ := conversionCosts_cons_eq_some_iff.1 h
      have hlow := Ty.leastCost_le hfirst
      obtain ⟨hlow', hsame⟩ := ih hrest
      simp only [List.map_cons, List.sum_cons]
      refine ⟨by omega, fun hsum => ?_⟩
      -- neither part of the sum is more than the least
      have hfirst' : first = actual.leastCost := by omega
      rw [hfirst', hsame (by omega)]

/-- What a call costs all of whose arguments suit their parameters. -/
def leastCost (actuals : List Ty) : Nat := sum32 (actuals.map Ty.leastCost)

theorem callCost_of_suiting (h : Suiting formals actuals) : callCost r formals actuals = some (leastCost actuals) := by
  rw [callCost, conversionCosts_eq_least_iff.2 h]
  rfl

theorem leastCost_eq_zero (h : .null ∉ actuals) : leastCost actuals = 0 := by
  refine sum32_eq_zero fun cost hcost => ?_
  obtain ⟨actual, hactual, rfl⟩ := List.mem_map.1 hcost
  exact if_neg fun hnull : actual = .null => h (hnull ▸ hactual)

theorem leastCost_le (hfits : Fits r formals actuals) {n : Nat} (h : callCost r formals actuals = some n) :
    leastCost actuals ≤ n := by
  rw [callCost_of_fits hfits] at h
  obtain ⟨costs, hcosts, rfl⟩ := Option.map_eq_some_iff.1 h
  have hlow := (sum_least_le hcosts).1
  unfold leastCost
  rwa [sum32_of_lt (Nat.lt_of_le_of_lt hlow (hfits costs hcosts))]

/-- **Where the costs fit, a call costs that** only when every argument suits its parameter. -/
theorem suiting_of_callCost (hfits : Fits r formals actuals)
    (h : callCost r formals actuals = some (leastCost actuals)) : Suiting formals actuals := by
  rw [callCost_of_fits hfits] at h
  obtain ⟨costs, hcosts, hsum⟩ := Option.map_eq_some_iff.1 h
  obtain ⟨hlow, hsame⟩ := sum_least_le hcosts
  unfold leastCost at hsum
  rw [sum32_of_lt (Nat.lt_of_le_of_lt hlow (hfits costs hcosts))] at hsum
  rw [← conversionCosts_eq_least_iff (r := r), hcosts, hsame hsum]

/-- No candidate comes below what a call costs all of whose arguments suit. -/
def Floored (r : Registry) (params : α → List Ty) (actuals : List Ty) (candidates : List α) : Prop :=
  ∀ a ∈ candidates, ∀ n, callCost r (params a) actuals = some n → leastCost actuals ≤ n

theorem floored_of_fits (h : ∀ a ∈ candidates, Fits r (params a) actuals) : Floored r params actuals candidates :=
  fun a ha _ hn => leastCost_le (h a ha) hn

theorem floored_of_not_mem_null (h : .null ∉ actuals) : Floored r params actuals candidates := fun _ _ n _ => by
  rw [leastCost_eq_zero h]
  exact Nat.zero_le n

/-- Parameter types with primitives collapsed onto their boxes. -/
abbrev collapsed (ts : List Ty) : List Ty := ts.map (·.normalized)

/-- Arguments of the declared types suit the parameters. -/
theorem suiting_collapsed (formals : List Ty) : Suiting formals (collapsed formals) := by
  unfold Suiting collapsed
  rw [List.forall₂_map_right_iff, List.forall₂_same]
  intro t _
  cases t <;> simp [Ty.Suits, Ty.normalized, Ty.isPrimitive]

theorem suiting_of_collapsed_eq {formals : List Ty} (h : collapsed formals = actuals) : Suiting formals actuals :=
  h ▸ suiting_collapsed formals

/-- Where a candidate suits the arguments, the choice is among those that cost as little. -/
theorem choose_of_suiting (hfloor : Floored r params actuals candidates) (ha : a ∈ candidates)
    (hsuit : Suiting (params a) actuals) : choose r params actuals candidates =
      .ofTied (candidates.filter fun b => callCost r (params b) actuals = some (leastCost actuals)) := by
  refine choose_of_least hfloor (List.ne_nil_of_mem (a := a) ?_)
  exact List.mem_filter.2 ⟨ha, decide_eq_true (callCost_of_suiting hsuit)⟩

/-- A candidate that is chosen and suits the arguments stands alone at this cost. -/
theorem filter_of_choose_one (h : choose r params actuals candidates = .one a) (ha : Suiting (params a) actuals) :
    (candidates.filter fun b => callCost r (params b) actuals = some (leastCost actuals)) = [a] := by
  rcases choose_cases r params actuals candidates with ⟨-, hnone⟩ | ⟨n, -, -, hchoice⟩
  · rw [hnone] at h
    cases h
  · rw [hchoice, ofTied_eq_one_iff] at h
    have hmem : a ∈ candidates.filter fun b => callCost r (params b) actuals = some n := by simp [h]
    have hcost := of_decide_eq_true (List.mem_filter.1 hmem).2
    rw [callCost_of_suiting ha, Option.some.injEq] at hcost
    rwa [hcost]

/-- Two candidates that suit the arguments are two at the same cost. -/
theorem two_le_of_suiting (hab : [a, b].Sublist candidates) (ha : Suiting (params a) actuals)
    (hb : Suiting (params b) actuals) :
    2 ≤ (candidates.filter fun b => callCost r (params b) actuals = some (leastCost actuals)).length := by
  have hboth := hab.filter fun b => decide (callCost r (params b) actuals = some (leastCost actuals))
  have hkeep : [a, b].filter (fun b => callCost r (params b) actuals = some (leastCost actuals)) = [a, b] := by
    simp [callCost_of_suiting ha, callCost_of_suiting hb]
  rw [hkeep] at hboth
  exact hboth.length_le

/-! ## The first of the candidates with the same parameters -/

/-- The first of the candidates with the same parameters up to boxing. -/
abbrev leading (params : α → List Ty) (candidates : List α) : List α :=
  firsts (fun a => collapsed (params a)) candidates

/-- What is chosen when of the candidates with the same parameters up to boxing the first one counts, and one that
declares the types of the arguments is taken without ranking. -/
def settle (r : Registry) (params : α → List Ty) (actuals : List Ty) (candidates : List α) : Choice α :=
  match candidates.find? fun a => collapsed (params a) = actuals with
  | some a => .one a
  | none => choose r params actuals (leading params candidates)

/-- The same one is chosen, or none is in both cases, or several are tied in both. -/
def Choice.Agrees : Choice α → Choice α → Prop
  | none, none => True
  | one a, one b => a = b
  | tie _, tie _ => True
  | _, _ => False

theorem settle_map (r : Registry) (params : β → List Ty) (actuals : List Ty) (f : α → β) (candidates : List α) :
    settle r params actuals (candidates.map f) = (settle r (params <| f ·) actuals candidates).map f := by
  unfold settle
  have hleading : leading params (candidates.map f) = (leading (params <| f ·) candidates).map f :=
    firsts_map f candidates
  rw [List.find?_map, hleading, choose_map]
  simp only [Function.comp_def]
  cases candidates.find? fun a => collapsed (params (f a)) = actuals <;> rfl

/-! ## What the two choices come to -/

/-- **Where the call can go to no candidate**, neither finds one. -/
theorem settle_eq_none (h : choose r params actuals candidates = .none) :
    settle r params actuals candidates = .none := by
  have hnone : ∀ a ∈ candidates, callCost r (params a) actuals = none := by
    rcases choose_cases r params actuals candidates with ⟨hnone, -⟩ | ⟨n, -, hne, hchoice⟩
    · exact hnone
    · rw [hchoice, ofTied_eq_none_iff] at h
      exact absurd h hne
  unfold settle
  cases hfind : candidates.find? fun a => collapsed (params a) = actuals with
  | some a =>
    -- a candidate that declares the types of the arguments can be called
    have hdeclared : collapsed (params a) = actuals := by simpa using List.find?_some hfind
    have hcost := callCost_of_suiting (r := r) (suiting_of_collapsed_eq hdeclared)
    rw [hnone a (List.mem_of_find?_eq_some hfind)] at hcost
    cases hcost
  | none =>
    rcases choose_cases r params actuals (leading params candidates) with ⟨-, hchoice⟩ | ⟨n, -, hne, -⟩
    · exact hchoice
    · refine absurd (List.filter_eq_nil_iff.2 fun a ha => ?_) hne
      simp [hnone a ((firsts_sublist _ _).subset ha)]

/-- **Where one candidate stands alone at the least cost**, both choose it, unless one before it has the same
parameters up to boxing, or another one declares the types of the arguments. -/
theorem settle_eq_one_iff (h : choose r params actuals candidates = .one a) :
    settle r params actuals candidates = .one a ↔ a ∈ leading params candidates ∧
      ∀ b ∈ candidates, collapsed (params b) = actuals → collapsed (params a) = actuals := by
  unfold settle
  cases hfind : candidates.find? fun a => collapsed (params a) = actuals with
  | some b =>
    have hdeclared : collapsed (params b) = actuals := by simpa using List.find?_some hfind
    simp only [Choice.one.injEq]
    constructor
    · rintro rfl
      refine ⟨mem_firsts_iff.2 ?_, fun _ _ _ => hdeclared⟩
      rw [hdeclared, hfind]
    · rintro ⟨hfirst, hall⟩
      rw [mem_firsts_iff, hall b (List.mem_of_find?_eq_some hfind) hdeclared, hfind] at hfirst
      exact Option.some.inj hfirst
  | none =>
    rw [List.find?_eq_none] at hfind
    refine ⟨fun h => ⟨(of_choose_one h).1, fun b hb hdeclared => absurd hdeclared (by simpa using hfind b hb)⟩, ?_⟩
    rintro ⟨ha, -⟩
    rcases choose_cases r params actuals candidates with ⟨-, hnone⟩ | ⟨n, hleast, -, hchoice⟩
    · rw [hnone] at h
      cases h
    · rw [hchoice, ofTied_eq_one_iff] at h
      have hsublist := firsts_sublist (fun a => collapsed (params a)) candidates
      have hcost : a ∈ candidates.filter fun b => callCost r (params b) actuals = some n := by simp [h]
      have hleft : a ∈ (leading params candidates).filter fun b =>
          callCost r (params b) actuals = some n := List.mem_filter.2 ⟨ha, (List.mem_filter.1 hcost).2⟩
      have halone := hsublist.filter fun b => decide (callCost r (params b) actuals = some n)
      rw [h, List.sublist_singleton] at halone
      simp only
      rw [choose_of_least (fun b hb => hleast b (hsublist.subset hb)) (List.ne_nil_of_mem hleft), ofTied_eq_one_iff]
      exact halone.resolve_left (List.ne_nil_of_mem hleft)

/-- What is chosen declares the types of the arguments where anything does, if nothing comes below it. -/
theorem declared_of_choose_one (hfloor : Floored r params actuals candidates)
    (h : choose r params actuals candidates = .one a) (hb : b ∈ candidates)
    (hdeclared : collapsed (params b) = actuals) : b = a := by
  have hsuit := suiting_of_collapsed_eq hdeclared
  rw [choose_of_suiting hfloor hb hsuit, ofTied_eq_one_iff] at h
  have hmem : b ∈ candidates.filter fun b => callCost r (params b) actuals = some (leastCost actuals) :=
    List.mem_filter.2 ⟨hb, decide_eq_true (callCost_of_suiting hsuit)⟩
  rw [h] at hmem
  exact List.mem_singleton.1 hmem

/-- **The first ones are tied** where they tie when they are ranked and none declares the types of the arguments. -/
theorem settle_eq_tie_iff {tied : List α} : settle r params actuals candidates = .tie tied ↔
    (∀ a ∈ candidates, collapsed (params a) ≠ actuals) ∧
      choose r params actuals (leading params candidates) = .tie tied := by
  unfold settle
  cases hfind : candidates.find? fun a => collapsed (params a) = actuals with
  | some a =>
    have hdeclared : collapsed (params a) = actuals := by simpa using List.find?_some hfind
    simp only [reduceCtorEq, false_iff, not_and]
    exact fun hnone => absurd hdeclared (hnone a (List.mem_of_find?_eq_some hfind))
  | none =>
    rw [List.find?_eq_none] at hfind
    exact (and_iff_right fun a ha => by simpa using hfind a ha).symm

/-- **Two candidates that suit the arguments tie.** -/
theorem tie_of_suiting (hfloor : Floored r params actuals candidates) (hab : [a, b].Sublist candidates)
    (ha : Suiting (params a) actuals) (hb : Suiting (params b) actuals) :
    ∃ tied, choose r params actuals candidates = .tie tied := by
  rw [choose_of_suiting hfloor (hab.subset List.mem_cons_self) ha]
  exact ⟨_, ofTied_eq_tie_iff.2 ⟨rfl, two_le_of_suiting hab ha hb⟩⟩

/-! ## Candidates that are told apart -/

/-- Each candidate is the one that is chosen for arguments of the types that it declares. -/
def Declared (r : Registry) (params : α → List Ty) (candidates : List α) : Prop :=
  ∀ a ∈ candidates, choose r params (collapsed (params a)) candidates = .one a

/-- Arguments of the types that one candidate declares do not suit the other. -/
def Apart (params : α → List Ty) (a b : α) : Prop :=
  ¬Suiting (params a) (collapsed (params b)) ∧ ¬Suiting (params b) (collapsed (params a))

theorem Apart.collapsed_ne (h : Apart params a b) : collapsed (params a) ≠ collapsed (params b) := fun hsame =>
  h.1 (suiting_of_collapsed_eq hsame)

/-- **Where each one is chosen for the types that it declares**, these suit no other. -/
theorem apart_of_declared (h : Declared r params candidates) : candidates.Pairwise (Apart params) := by
  rw [List.pairwise_iff_forall_sublist]
  intro a b hab
  -- two that suit what one of them declares would be two at its cost
  have hone : ∀ c ∈ candidates, ¬(Suiting (params a) (collapsed (params c)) ∧
      Suiting (params b) (collapsed (params c))) := by
    rintro c hc ⟨hsuit, hsuit'⟩
    have htwo := two_le_of_suiting (r := r) hab hsuit hsuit'
    rw [filter_of_choose_one (h c hc) (suiting_collapsed _)] at htwo
    simp at htwo
  exact ⟨fun hsuit => hone b (hab.subset (by simp)) ⟨hsuit, suiting_collapsed _⟩,
    fun hsuit => hone a (hab.subset (by simp)) ⟨suiting_collapsed _, hsuit⟩⟩

/-- **Candidates kept apart** are each chosen for the types that they declare, if the costs fit. -/
theorem declared_of_apart (hfits : ∀ a ∈ candidates, ∀ b ∈ candidates, Fits r (params a) (collapsed (params b)))
    (h : candidates.Pairwise (Apart params)) : Declared r params candidates := by
  intro a ha
  have hfloor : Floored r params (collapsed (params a)) candidates := floored_of_fits fun b hb => hfits b hb a ha
  have hnodup : candidates.Nodup := by
    refine h.imp ?_
    rintro b _ hbc rfl
    exact hbc.collapsed_ne rfl
  have hsymm : Std.Symm (Apart params) := ⟨fun _ _ hbc => ⟨hbc.2, hbc.1⟩⟩
  rw [choose_eq_one_iff_alone hnodup hfloor ha (callCost_of_suiting (suiting_collapsed _))]
  intro b hb hcost
  by_contra hne
  exact (h.forall hb ha hne).1 (suiting_of_callCost (hfits b hb a ha) hcost)

theorem Choice.Agrees.refl (choice : Choice α) : choice.Agrees choice := by
  cases choice <;> trivial

/-- **Where each one is chosen for the types that it declares the two choices agree**, whatever the arguments. -/
theorem agrees_of_declared (h : Declared r params candidates) (actuals : List Ty) :
    (choose r params actuals candidates).Agrees (settle r params actuals candidates) := by
  unfold settle
  cases hfind : candidates.find? fun a => collapsed (params a) = actuals with
  | some a =>
    have hdeclared : collapsed (params a) = actuals := by simpa using List.find?_some hfind
    rw [← hdeclared, h a (List.mem_of_find?_eq_some hfind)]
    exact .refl _
  | none =>
    have hfirsts : leading params candidates = candidates :=
      firsts_of_pairwise ((apart_of_declared h).imp fun hab => hab.collapsed_ne)
    rw [hfirsts]
    exact .refl _

/-- **Where the two choices agree on the types that are declared**, each one is chosen for its own. -/
theorem declared_of_agrees (h : ∀ a ∈ candidates, (choose r params (collapsed (params a)) candidates).Agrees
    (settle r params (collapsed (params a)) candidates)) : Declared r params candidates := by
  intro a ha
  have hagrees := h a ha
  obtain ⟨b, hfind⟩ : ∃ b, candidates.find? (fun b => collapsed (params b) = collapsed (params a)) = some b :=
    Option.isSome_iff_exists.1 (List.find?_isSome.2 ⟨a, ha, by simp⟩)
  have hdeclared : collapsed (params b) = collapsed (params a) := by simpa using List.find?_some hfind
  unfold settle at hagrees
  rw [hfind] at hagrees
  cases hchoice : choose r params (collapsed (params a)) candidates with
  | none | tie =>
    rw [hchoice] at hagrees
    exact hagrees.elim
  | one c =>
    rw [hchoice] at hagrees
    obtain rfl : c = b := hagrees
    -- `a` costs as little, where the one that is chosen stands alone
    have halone := filter_of_choose_one hchoice (suiting_of_collapsed_eq hdeclared)
    have hmem : a ∈ candidates.filter fun b =>
        callCost r (params b) (collapsed (params a)) = some (leastCost (collapsed (params a))) :=
      List.mem_filter.2 ⟨ha, decide_eq_true (callCost_of_suiting (suiting_collapsed _))⟩
    rw [halone] at hmem
    rw [List.mem_singleton.1 hmem]

end MemberAccess
