import Mathlib.Algebra.Group.Action.Defs
import Mathlib.Algebra.GroupWithZero.Nat
import Mathlib.Algebra.Order.BigOperators.Group.List
import Mathlib.Algebra.Order.Ring.Nat
import MemberAccess.Proofs.Registry.ShortestPath

/-!
# What a call costs

A call costs what its arguments cost, added up in 32 bits. That is their sum as long as nothing is carried out of these
bits, and so for all calls but those of very many arguments over very long chains of classes.

* `conversionCosts_eq_some_iff`: costs argument by argument.
* `Fits`: the costs of a call add up without a carry; `callCost_of_fits`: then their sum is what the call costs.
* `conversionCost_le`, `fits_of_length`: no argument costs more than the longest chain of classes, so the costs fit
  where there are few enough arguments and classes.
-/

namespace MemberAccess

variable {r : Registry} {formals actuals : List Ty} {costs : List Nat}

/-! ## Costs argument by argument -/

theorem conversionCosts_cons_eq_some_iff {formal actual : Ty} :
    conversionCosts r (formal :: formals) (actual :: actuals) = some costs ↔
      ∃ first rest, conversionCost r formal actual = some first ∧ conversionCosts r formals actuals = some rest ∧
        first :: rest = costs := by
  simp [conversionCosts, Option.bind_eq_some_iff]

theorem conversionCosts_eq_some_iff : conversionCosts r formals actuals = some costs ↔
    formals.length = actuals.length ∧ List.zipWith (conversionCost r) formals actuals = costs.map some := by
  induction formals generalizing actuals costs with
  | nil =>
    cases actuals with
    | nil =>
      constructor
      · intro h
        cases h
        exact ⟨rfl, rfl⟩
      · rintro ⟨-, hcosts⟩
        rw [List.map_eq_nil_iff.1 hcosts.symm]
        rfl
    | cons => simp [conversionCosts]
  | cons formal formals ih =>
    cases actuals with
    | nil => simp [conversionCosts]
    | cons actual actuals =>
      rw [conversionCosts_cons_eq_some_iff]
      constructor
      · rintro ⟨first, rest, hfirst, hrest, rfl⟩
        obtain ⟨hlength, hcosts⟩ := ih.1 hrest
        exact ⟨by simp [hlength], by simp [hfirst, hcosts]⟩
      · rintro ⟨hlength, hcosts⟩
        cases costs with
        | nil => simp at hcosts
        | cons first rest =>
          rw [List.zipWith_cons_cons, List.map_cons, List.cons.injEq] at hcosts
          exact ⟨first, rest, hcosts.1, ih.2 ⟨by simpa using hlength, hcosts.2⟩, rfl⟩

/-! ## Sums in 32 bits -/

/-- Without a carry, costs that are added one after another come to their sum. -/
theorem foldl_of_lt {first : Nat} {rest : List Nat} (h : first + rest.sum < UInt32.size) :
    rest.foldl (fun sum cost => (sum + cost) % UInt32.size) first = first + rest.sum := by
  induction rest generalizing first with
  | nil => rfl
  | cons cost rest ih =>
    rw [List.sum_cons] at h ⊢
    rw [List.foldl_cons, Nat.mod_eq_of_lt (by omega), ih (by omega), Nat.add_assoc]

theorem sum32_of_lt (h : costs.sum < UInt32.size) : sum32 costs = costs.sum := by
  cases costs with
  | nil => rfl
  | cons first rest =>
    rw [List.sum_cons] at h ⊢
    exact foldl_of_lt h

/-- Past the bound a sum can come back to nothing. -/
example : sum32 [UInt32.size - 8, 8] = 0 := by decide

theorem sum32_eq_zero (h : ∀ cost ∈ costs, cost = 0) : sum32 costs = 0 := by
  have hsum : costs.sum = 0 := List.sum_eq_zero h
  rw [sum32_of_lt (hsum ▸ by decide), hsum]

/-- If the call can be made at all, its costs add up without a carry out of 32 bits. -/
def Fits (r : Registry) (formals actuals : List Ty) : Prop :=
  ∀ costs, conversionCosts r formals actuals = some costs → costs.sum < UInt32.size

/-- **Where they fit, a call costs the sum.** -/
theorem callCost_of_fits (h : Fits r formals actuals) :
    callCost r formals actuals = (conversionCosts r formals actuals).map List.sum := by
  unfold callCost
  cases hcosts : conversionCosts r formals actuals with
  | none => rfl
  | some costs => rw [Option.map_some, Option.map_some, sum32_of_lt (h costs hcosts)]

/-! ## How much there can be -/

theorem Primitive.mem_all (p : Primitive) : p ∈ Primitive.all := by cases p <;> decide

/-- No path is longer than there are classes, and arrays are as far apart as what they are arrays of. -/
theorem distanceWithin_le {depth : Nat} {c a : ClassId} {n : Nat} (h : r.distanceWithin depth c a = some n) :
    n ≤ r.size := by
  fun_induction r.distanceWithin depth c a with
  | case1 =>
    cases h
    exact Nat.zero_le _
  | case3 =>
    rename_i ih
    exact ih h
  | case5 => exact Nat.le_of_lt (Registry.climb_eq_some_iff.1 h).1
  | case2 | case4 | case6 => cases h

/-- **No argument costs more** than a reference over a chain of all classes. -/
theorem conversionCost_le {formal actual : Ty} {n : Nat} (h : conversionCost r formal actual = some n) :
    n ≤ referenceCost + r.size := by
  unfold conversionCost at h
  split at h
  · split at h
    · cases h
    · cases h
      exact Nat.le_add_right _ _
  · split at h
    · cases h
      exact Nat.zero_le _
    · split at h
      · rename_i p q _ _
        have hless : ∀ p ∈ Primitive.all, ∀ q ∈ Primitive.all, ∀ k ∈ p.widening q, k ≤ referenceCost := by decide
        exact Nat.le_trans (hless q q.mem_all p p.mem_all n h) (Nat.le_add_right _ _)
      · split at h
        · cases h
        · split at h
          · obtain ⟨k, hk, rfl⟩ := Option.map_eq_some_iff.1 h
            exact Nat.add_le_add_left (distanceWithin_le hk) _
          · cases h

/-- **Where arguments and classes are few enough, the costs fit**, whatever the parameters. -/
theorem fits_of_length (h : actuals.length * (referenceCost + r.size) < UInt32.size) : Fits r formals actuals := by
  intro costs hcosts
  obtain ⟨hlength, hzip⟩ := conversionCosts_eq_some_iff.1 hcosts
  have hle : ∀ cost ∈ costs, cost ≤ referenceCost + r.size := by
    intro cost hcost
    have hmem : some cost ∈ List.zipWith (conversionCost r) formals actuals := by
      rw [hzip]
      exact List.mem_map_of_mem hcost
    obtain ⟨i, hi, hat⟩ := List.mem_iff_getElem.1 hmem
    rw [List.getElem_zipWith] at hat
    exact conversionCost_le hat
  have hcount : costs.length = actuals.length := by
    simpa [hlength] using (congrArg List.length hzip).symm
  calc costs.sum ≤ costs.length • (referenceCost + r.size) := List.sum_le_card_nsmul costs _ hle
    _ = actuals.length * (referenceCost + r.size) := by rw [hcount, smul_eq_mul]
    _ < UInt32.size := h

end MemberAccess
