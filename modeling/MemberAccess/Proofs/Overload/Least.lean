import Mathlib.Algebra.GroupWithZero.Nat
import Mathlib.Data.List.Sort
import MemberAccess.Introspection.ClassMap
import MemberAccess.Proofs.Overload.Choice
import MemberAccess.Proofs.Overload.Cost

/-!
# The overload of least cost

What a call costs is a sum in 32 bits, and the choice among overloads is settled by these sums alone: it goes to the
only candidate at the least sum, several of them are a tie, and the order in which the candidates come has no part in
it. Where nothing is carried out of the 32 bits, it is settled by the sums as they are.

* `Sums`, `Applies`: the cost of a call and whether it can go to a candidate, parameter by parameter.
* `CheapestAt`: a position among the candidates where the least sum stands.
* `cheapest_cases`: a choice is made of the candidates at these positions.
* `choose_perm`, `choose_insert`: candidates in another order, and candidates that the call cannot go to.
* `GoesByCost`, `goesByCost_choose`: all of this for what is made of a choice.
* `choose_least`: by sums in 32 bits, and by sums as they are where they fit.
-/

namespace MemberAccess

/-- What a call costs in all: as many parameters as there are arguments, and costs of passing them, one by one, that
are added up to a total. -/
def Sums (add : List Nat → Nat) (r : Registry) (formals actuals : List Ty) (total : Nat) : Prop :=
  formals.length = actuals.length ∧
    ∃ costs : List Nat, List.zipWith (conversionCost r) formals actuals = costs.map some ∧ add costs = total

/-- As many parameters as there are arguments, and every argument can be passed. -/
def Applies (r : Registry) (formals actuals : List Ty) : Prop :=
  formals.length = actuals.length ∧
    ∀ cost ∈ List.zipWith (conversionCost r) formals actuals, cost.isSome = true

/-- At a position among the candidates stands one that the call can go to, and none costs less. -/
def CheapestAt {α : Type} (add : List Nat → Nat) (r : Registry) (params : α → List Ty) (actuals : List Ty)
    (candidates : List α) (i : Nat) : Prop :=
  ∃ c total, candidates[i]? = some c ∧ Sums add r (params c) actuals total ∧
    ∀ a ∈ candidates, ∀ m, Sums add r (params a) actuals m → total ≤ m

section Costs

variable {add : List Nat → Nat} {r : Registry} {formals actuals : List Ty} {total : Nat}

theorem sums_iff : Sums add r formals actuals total ↔ (conversionCosts r formals actuals).map add = some total := by
  simp only [Sums, Option.map_eq_some_iff, conversionCosts_eq_some_iff, and_assoc, exists_and_left]

theorem callCost_eq_some_iff : callCost r formals actuals = some total ↔ Sums sum32 r formals actuals total :=
  sums_iff.symm

/-- Where the costs fit, it is the same whether they are added up in 32 bits. -/
theorem sums_of_fits (h : Fits r formals actuals) :
    Sums List.sum r formals actuals total ↔ Sums sum32 r formals actuals total := by
  rw [sums_iff, ← callCost_of_fits h, callCost_eq_some_iff]

/-- A call has a cost exactly when it can go to the candidate. -/
theorem applies_iff : Applies r formals actuals ↔ (callCost r formals actuals).isSome = true := by
  rw [Option.isSome_iff_exists]
  simp only [callCost_eq_some_iff]
  constructor
  · rintro ⟨hlength, hall⟩
    refine ⟨_, hlength, (List.zipWith (conversionCost r) formals actuals).map (·.getD 0), ?_, rfl⟩
    rw [List.map_map, List.map_congr_left, List.map_id]
    intro cost hcost
    obtain ⟨n, rfl⟩ := Option.isSome_iff_exists.1 (hall cost hcost)
    rfl
  · rintro ⟨total, hlength, costs, hcosts, -⟩
    refine ⟨hlength, fun cost hcost => ?_⟩
    rw [hcosts] at hcost
    obtain ⟨n, -, rfl⟩ := List.mem_map.1 hcost
    rfl

end Costs

section Least

variable {α : Type} {r : Registry} {params : α → List Ty} {actuals : List Ty} {candidates cs : List α}

/-- What is kept of a list stands at the positions of what is kept. -/
theorem filter_eq_filterMap_findIdxs (p : α → Bool) (l : List α) :
    l.filter p = (l.findIdxs p).filterMap (l[·]?) := by
  induction l using List.reverseRecOn with
  | nil => rfl
  | append_singleton l a ih =>
    have hbefore : (l.findIdxs p).filterMap ((l ++ [a])[·]?) = (l.findIdxs p).filterMap (l[·]?) := by
      apply List.filterMap_congr
      intro i hi
      obtain ⟨hlt, -⟩ := List.mem_findIdxs_iff_exists_getElem_pos.1 hi
      exact List.getElem?_append_left hlt
    rw [List.filter_append, List.findIdxs_append, List.filterMap_append, hbefore, ih]
    by_cases ha : p a <;> simp [ha]

/-- **The choice is made of the candidates at the cheapest positions**, and there are none of these when the call can
go to no candidate. -/
theorem cheapest_cases (r : Registry) (params : α → List Ty) (actuals : List Ty) (candidates : List α) :
    ((∀ a ∈ candidates, ¬Applies r (params a) actuals) ∧ (∀ i, ¬CheapestAt sum32 r params actuals candidates i) ∧
      choose r params actuals candidates = .none) ∨
    ∃ positions : List Nat, positions.SortedLT ∧ positions ≠ [] ∧
      (∀ i, i ∈ positions ↔ CheapestAt sum32 r params actuals candidates i) ∧
      choose r params actuals candidates = .ofTied (positions.filterMap (candidates[·]?)) := by
  rcases choose_cases r params actuals candidates with ⟨hnone, hchoice⟩ | ⟨n, hlow, hne, hchoice⟩
  · refine .inl ⟨fun a ha => ?_, ?_, hchoice⟩
    · rw [applies_iff, hnone a ha]
      exact Bool.false_ne_true
    · rintro i ⟨c, total, hc, htotal, -⟩
      rw [← callCost_eq_some_iff, hnone c (List.mem_of_getElem? hc)] at htotal
      cases htotal
  · refine .inr ⟨candidates.findIdxs fun a => callCost r (params a) actuals = some n,
      List.pairwise_findIdxs.sortedLT, ?_, ?_, ?_⟩
    · rw [filter_eq_filterMap_findIdxs] at hne
      intro hnil
      rw [hnil] at hne
      exact hne rfl
    · intro i
      rw [List.mem_findIdxs_iff_exists_getElem_pos]
      constructor
      · rintro ⟨hi, hcost⟩
        refine ⟨candidates[i], n, List.getElem?_eq_getElem hi, callCost_eq_some_iff.1 (of_decide_eq_true hcost), ?_⟩
        intro a ha m hm
        exact hlow a ha m (callCost_eq_some_iff.2 hm)
      · rintro ⟨c, total, hc, htotal, hleast⟩
        obtain ⟨hi, rfl⟩ := List.getElem?_eq_some_iff.1 hc
        rw [← callCost_eq_some_iff] at htotal
        -- some candidate comes at the least cost, so this one does too
        obtain ⟨a, ha⟩ := List.exists_mem_of_ne_nil _ hne
        obtain ⟨hmem, hcost⟩ := List.mem_filter.1 ha
        have hle := hleast a hmem n (callCost_eq_some_iff.1 (of_decide_eq_true hcost))
        have hge := hlow _ (List.mem_of_getElem? hc) total htotal
        have hsame : total = n := Nat.le_antisymm hle hge
        exact ⟨hi, decide_eq_true (hsame ▸ htotal)⟩
    · rw [hchoice, filter_eq_filterMap_findIdxs]

/-- Positions among the candidates lead to as many of them. -/
theorem length_filterMap_getElem? {positions : List Nat}
    (h : ∀ i ∈ positions, CheapestAt sum32 r params actuals candidates i) :
    (positions.filterMap (candidates[·]?)).length = positions.length := by
  rw [List.length_filterMap_eq_countP, List.countP_eq_length]
  intro i hi
  obtain ⟨c, -, hc, -⟩ := h i hi
  rw [hc]
  rfl

theorem choose_eq_none_iff : choose r params actuals candidates = .none ↔
    ∀ a ∈ candidates, ¬Applies r (params a) actuals := by
  rcases cheapest_cases r params actuals candidates with ⟨hnone, -, hchoice⟩ | ⟨positions, -, hne, hmem, hchoice⟩
  · exact ⟨fun _ => hnone, fun _ => hchoice⟩
  · -- what stands at a cheapest position can be called
    obtain ⟨i, hi⟩ := List.exists_mem_of_ne_nil _ hne
    obtain ⟨c, total, hc, htotal, -⟩ := (hmem i).1 hi
    have happlies : Applies r (params c) actuals := by
      rw [applies_iff, callCost_eq_some_iff.2 htotal]
      rfl
    constructor
    · intro h
      have hlength := length_filterMap_getElem? fun i hi => (hmem i).1 hi
      rw [hchoice, ofTied_eq_none_iff] at h
      rw [h] at hlength
      exact absurd (List.length_eq_zero_iff.1 hlength.symm) hne
    · intro h
      exact absurd happlies (h c (List.mem_of_getElem? hc))

theorem choose_eq_one_iff {c : α} : choose r params actuals candidates = .one c ↔
    ∃ i, candidates[i]? = some c ∧ CheapestAt sum32 r params actuals candidates i ∧
      ∀ j, CheapestAt sum32 r params actuals candidates j → j = i := by
  rcases cheapest_cases r params actuals candidates with ⟨-, hnone, hchoice⟩ | ⟨positions, hsorted, -, hmem, hchoice⟩
  · constructor
    · intro h
      rw [hchoice] at h
      cases h
    · rintro ⟨i, -, hi, -⟩
      exact absurd hi (hnone i)
  · have hlength := length_filterMap_getElem? fun i hi => (hmem i).1 hi
    rw [hchoice, ofTied_eq_one_iff]
    constructor
    · intro h
      rw [h] at hlength
      obtain ⟨i, rfl⟩ := List.length_eq_one_iff.1 hlength.symm
      have hi : i ∈ [i] := List.mem_singleton_self i
      obtain ⟨c', -, hc', -⟩ := (hmem i).1 hi
      simp only [List.filterMap_cons, hc', List.filterMap_nil, List.cons.injEq, and_true] at h
      exact ⟨i, h ▸ hc', (hmem i).1 hi, fun j hj => List.mem_singleton.1 ((hmem j).2 hj)⟩
    · rintro ⟨i, hc, hi, honly⟩
      have hsingle : positions = [i] := by
        refine hsorted.eq_of_mem_iff (List.pairwise_singleton _ i).sortedLT fun j => ?_
        rw [List.mem_singleton, hmem]
        exact ⟨honly j, fun hj => hj ▸ hi⟩
      simp [hsingle, hc]

theorem choose_eq_tie_iff {tied : List α} : choose r params actuals candidates = .tie tied ↔
    ∃ positions : List Nat, positions.SortedLT ∧ (∀ i, i ∈ positions ↔ CheapestAt sum32 r params actuals candidates i) ∧
      2 ≤ positions.length ∧ tied = positions.filterMap (candidates[·]?) := by
  rcases cheapest_cases r params actuals candidates with ⟨-, hnone, hchoice⟩ | ⟨positions, hsorted, -, hmem, hchoice⟩
  · constructor
    · intro h
      rw [hchoice] at h
      cases h
    · rintro ⟨positions, -, hmem, htwo, -⟩
      have hne : positions ≠ [] := by
        rintro rfl
        simp at htwo
      obtain ⟨i, hi⟩ := List.exists_mem_of_ne_nil _ hne
      exact absurd ((hmem i).1 hi) (hnone i)
  · have hlength := length_filterMap_getElem? fun i hi => (hmem i).1 hi
    rw [hchoice, ofTied_eq_tie_iff]
    constructor
    · rintro ⟨htied, htwo⟩
      exact ⟨positions, hsorted, hmem, hlength ▸ htwo, htied.symm⟩
    · rintro ⟨positions', hsorted', hmem', htwo, rfl⟩
      have hsame : positions = positions' := hsorted.eq_of_mem_iff hsorted' fun i => (hmem i).trans (hmem' i).symm
      subst hsame
      exact ⟨rfl, hlength.symm ▸ htwo⟩

/-! ## Other candidates -/

/-- Candidates in another order have the same least cost, and the same ones come at it. -/
theorem choose_perm (r : Registry) (params : α → List Ty) (actuals : List Ty) (h : cs.Perm candidates) :
    ∃ tied tied' : List α, tied'.Perm tied ∧
      choose r params actuals candidates = .ofTied tied ∧ choose r params actuals cs = .ofTied tied' := by
  have hsame (a : α) : a ∈ cs ↔ a ∈ candidates := h.mem_iff
  rcases choose_cases r params actuals candidates with ⟨hnone, hchoice⟩ | ⟨n, hlow, hne, hchoice⟩ <;>
    rcases choose_cases r params actuals cs with ⟨hnone', hchoice'⟩ | ⟨n', hlow', hne', hchoice'⟩
  · exact ⟨[], [], .nil, hchoice, hchoice'⟩
  · obtain ⟨a, ha⟩ := List.exists_mem_of_ne_nil _ hne'
    obtain ⟨hmem, hcost⟩ := List.mem_filter.1 ha
    rw [hnone a ((hsame a).1 hmem)] at hcost
    cases of_decide_eq_true hcost
  · obtain ⟨a, ha⟩ := List.exists_mem_of_ne_nil _ hne
    obtain ⟨hmem, hcost⟩ := List.mem_filter.1 ha
    rw [hnone' a ((hsame a).2 hmem)] at hcost
    cases of_decide_eq_true hcost
  · -- both least costs are met in both lists
    have hleast : n = n' := by
      obtain ⟨a, ha⟩ := List.exists_mem_of_ne_nil _ hne
      obtain ⟨a', ha'⟩ := List.exists_mem_of_ne_nil _ hne'
      obtain ⟨hmem, hcost⟩ := List.mem_filter.1 ha
      obtain ⟨hmem', hcost'⟩ := List.mem_filter.1 ha'
      have hle := hlow' a ((hsame a).2 hmem) n (of_decide_eq_true hcost)
      have hge := hlow a' ((hsame a').1 hmem') n' (of_decide_eq_true hcost')
      omega
    subst hleast
    exact ⟨_, _, h.filter _, hchoice, hchoice'⟩

/-- Candidates that the call cannot go to can be put in anywhere. -/
theorem choose_insert (before : List α) {extra : List α} (after : List α)
    (h : ∀ c ∈ extra, ¬Applies r (params c) actuals) :
    choose r params actuals (before ++ extra ++ after) = choose r params actuals (before ++ after) := by
  have hextra : extra.filter (fun c => (callCost r (params c) actuals).isSome) = [] := by
    rw [List.filter_eq_nil_iff]
    intro c hc hsome
    exact h c hc (applies_iff.2 hsome)
  rw [← choose_filter, ← choose_filter r params actuals (before ++ after), List.filter_append, List.filter_append,
    List.filter_append, hextra, List.append_nil]

end Least

/-! ## What is made of a choice -/

/-- An outcome for every list of candidates goes by the least cost, with costs added up in some way. -/
structure GoesByCost {α : Type} (add : List Nat → Nat) (r : Registry) (name : α → String) (params : α → List Ty)
    (actuals : List Ty) (candidates : List α) (outcome : List α → Lookup α) : Prop where
  /-- nothing is found when the call can go to no candidate -/
  miss : outcome candidates = .miss ↔ ∀ c ∈ candidates, ¬Applies r (params c) actuals
  /-- what is found stands at the only position with the least cost -/
  found : ∀ c, outcome candidates = .found c ↔ ∃ i, candidates[i]? = some c ∧
    CheapestAt add r params actuals candidates i ∧ ∀ j, CheapestAt add r params actuals candidates j → j = i
  /-- a tie describes the candidates at the positions with the least cost, two at least, in order -/
  ambiguous : ∀ texts, outcome candidates = .ambiguous texts ↔ ∃ positions : List Nat, positions.SortedLT ∧
    (∀ i, i ∈ positions ↔ CheapestAt add r params actuals candidates i) ∧ 2 ≤ positions.length ∧
    texts = positions.filterMap fun i => candidates[i]?.map fun c => r.describe (name c) (params c)
  /-- the order of the candidates is of no account, but for the order of those tied -/
  permuted : ∀ cs : List α, cs.Perm candidates → (outcome cs = .miss ↔ outcome candidates = .miss) ∧
    (∀ c, outcome cs = .found c ↔ outcome candidates = .found c) ∧
    ∀ texts, outcome candidates = .ambiguous texts → ∃ texts', outcome cs = .ambiguous texts' ∧ texts'.Perm texts
  /-- nor are candidates that the call cannot go to -/
  inserted : ∀ before extra after, candidates = before ++ after → (∀ c ∈ extra, ¬Applies r (params c) actuals) →
    outcome (before ++ extra ++ after) = outcome candidates

section Outcome

variable {α : Type} {describe : α → String} {choice : Choice α}

theorem ofChoice_eq_miss_iff : Lookup.ofChoice describe choice = .miss ↔ choice = .none := by
  cases choice <;> simp [Lookup.ofChoice]

theorem ofChoice_eq_found_iff {c : α} : Lookup.ofChoice describe choice = .found c ↔ choice = .one c := by
  cases choice <;> simp [Lookup.ofChoice]

theorem ofChoice_eq_ambiguous_iff {texts : List String} :
    Lookup.ofChoice describe choice = .ambiguous texts ↔ ∃ tied, choice = .tie tied ∧ texts = tied.map describe := by
  cases choice <;> simp [Lookup.ofChoice, eq_comm]

/-- The same candidates in another order come to the same, but for their order. -/
theorem ofTied_perm {tied tied' : List α} (h : tied'.Perm tied) :
    (Choice.ofTied tied' = .none ↔ Choice.ofTied tied = .none) ∧
      (∀ c, Choice.ofTied tied' = .one c ↔ Choice.ofTied tied = .one c) ∧
      ∀ more, Choice.ofTied tied = .tie more → ∃ more', Choice.ofTied tied' = .tie more' ∧ more'.Perm more := by
  refine ⟨?_, ?_, ?_⟩
  · rw [ofTied_eq_none_iff, ofTied_eq_none_iff, ← List.length_eq_zero_iff, h.length_eq, List.length_eq_zero_iff]
  · intro c
    rw [ofTied_eq_one_iff, ofTied_eq_one_iff]
    constructor
    · rintro rfl
      exact List.perm_singleton.1 h.symm
    · rintro rfl
      exact List.perm_singleton.1 h
  · intro more hmore
    obtain ⟨rfl, htwo⟩ := ofTied_eq_tie_iff.1 hmore
    exact ⟨tied', ofTied_eq_tie_iff.2 ⟨rfl, h.length_eq.symm ▸ htwo⟩, h⟩

end Outcome

section Cost

variable {α : Type} {add add' : List Nat → Nat} {r : Registry} {name : α → String} {params : α → List Ty}
  {actuals : List Ty} {candidates : List α} {outcome : List α → Lookup α}

/-- **A choice goes by the least sum in 32 bits.** -/
theorem goesByCost_choose (r : Registry) (name : α → String) (params : α → List Ty) (actuals : List Ty)
    (candidates : List α) :
    GoesByCost sum32 r name params actuals candidates fun cs =>
      .ofChoice (fun c => r.describe (name c) (params c)) (choose r params actuals cs) where
  miss := by rw [ofChoice_eq_miss_iff, choose_eq_none_iff]
  found c := by rw [ofChoice_eq_found_iff, choose_eq_one_iff]
  ambiguous texts := by
    rw [ofChoice_eq_ambiguous_iff]
    constructor
    · rintro ⟨tied, htie, rfl⟩
      obtain ⟨positions, hsorted, hmem, htwo, rfl⟩ := choose_eq_tie_iff.1 htie
      exact ⟨positions, hsorted, hmem, htwo, List.map_filterMap ..⟩
    · rintro ⟨positions, hsorted, hmem, htwo, rfl⟩
      exact ⟨_, choose_eq_tie_iff.2 ⟨positions, hsorted, hmem, htwo, rfl⟩, (List.map_filterMap ..).symm⟩
  permuted cs h := by
    obtain ⟨tied, tied', hperm, hchoice, hchoice'⟩ := choose_perm r params actuals h
    obtain ⟨hmiss, hfound, htie⟩ := ofTied_perm hperm
    simp only [hchoice, hchoice', ofChoice_eq_miss_iff, ofChoice_eq_found_iff, ofChoice_eq_ambiguous_iff]
    refine ⟨hmiss, hfound, ?_⟩
    rintro texts ⟨more, hmore, rfl⟩
    obtain ⟨more', hmore', hperm'⟩ := htie more hmore
    exact ⟨_, ⟨more', hmore', rfl⟩, hperm'.map _⟩
  inserted before extra after h hextra := by
    subst h
    simp only [choose_insert before after hextra]

/-- What goes by costs goes by them as well when they are added up in another way with the same totals. -/
theorem GoesByCost.congr (h : GoesByCost add r name params actuals candidates outcome)
    (hsums : ∀ c ∈ candidates, ∀ total, Sums add' r (params c) actuals total ↔ Sums add r (params c) actuals total) :
    GoesByCost add' r name params actuals candidates outcome := by
  have hcheapest : ∀ i,
      CheapestAt add' r params actuals candidates i ↔ CheapestAt add r params actuals candidates i := by
    intro i
    refine exists_congr fun c => exists_congr fun total => and_congr_right fun hc => ?_
    refine and_congr (hsums c (List.mem_of_getElem? hc) total) ?_
    exact forall₂_congr fun a ha => forall_congr' fun m => imp_congr_left (hsums a ha m)
  constructor
  · exact h.miss
  · simp only [hcheapest]
    exact h.found
  · simp only [hcheapest]
    exact h.ambiguous
  · exact h.permuted
  · exact h.inserted

end Cost

/-- **The choice among overloads goes by the least cost**, in every registry, for every call and any number of
candidates. What a call costs is the sum in 32 bits, and so the sum itself where the costs of all candidates fit these.
They do where there are few enough arguments and classes. -/
theorem choose_least {α : Type} (r : Registry) (name : α → String) (params : α → List Ty) (actuals : List Ty)
    (candidates : List α) :
    let outcome (cs : List α) : Lookup α :=
      .ofChoice (fun c => r.describe (name c) (params c)) (choose r params actuals cs)
    GoesByCost sum32 r name params actuals candidates outcome ∧
    ((∀ c ∈ candidates, Fits r (params c) actuals) → GoesByCost List.sum r name params actuals candidates outcome) ∧
    (actuals.length * (referenceCost + r.size) < UInt32.size → ∀ c ∈ candidates, Fits r (params c) actuals) := by
  intro outcome
  have hchoose : GoesByCost sum32 r name params actuals candidates outcome := goesByCost_choose r name params actuals _
  refine ⟨hchoose, fun hfits => ?_, fun hfew c _ => fits_of_length hfew⟩
  exact hchoose.congr fun c hc total => sums_of_fits (hfits c hc)

/-- Two numbers can be passed as any numbers and any objects, in two orders at the same cost. The costs fit. -/
theorem choose_least_pair :
    let params : Bool → List Ty := fun first =>
      if first then [.ofClass .number, .object] else [.object, .ofClass .number]
    let outcome (cs : List Bool) : Lookup Bool := .ofChoice (fun c => Registry.initial.describe "add" (params c))
      (choose .initial params [.ofClass .integer, .ofClass .integer] cs)
    (∀ c ∈ [true, false], Fits .initial (params c) [.ofClass .integer, .ofClass .integer]) ∧
      GoesByCost List.sum .initial (fun _ => "add") params [.ofClass .integer, .ofClass .integer] [true, false]
        outcome ∧
      outcome [true, false] = .ambiguous ["add(kiln.lang.Number, kiln.lang.Object)",
        "add(kiln.lang.Object, kiln.lang.Number)"] := by
  intro params outcome
  obtain ⟨-, hsums, hfew⟩ := choose_least .initial (fun _ => "add") params
    [.ofClass .integer, .ofClass .integer] [true, false]
  have hfits := hfew (by decide)
  exact ⟨hfits, hsums hfits, by rfl⟩

end MemberAccess
