import Mathlib.Data.List.Find
import Mathlib.Data.List.Pairwise

/-!
# The first element of each key

Where several elements of a list have the same key, the first one counts.

* `firsts`: the elements of which none before has the key.
* `find?_firsts`, `mem_firsts_iff`: which these are.
* `firsts_map`, `firsts_congr`, `firsts_append`: the same for other lists and other keys.
-/

namespace MemberAccess

variable {α β κ μ : Type} [DecidableEq κ] [DecidableEq μ]

/-- The first element of each key. -/
def firsts (key : α → κ) : List α → List α
  | [] => []
  | a :: rest => a :: (firsts key rest).filter (key · ≠ key a)

variable {key : α → κ} {a : α} {l : List α}

theorem firsts_cons (key : α → κ) (a : α) (rest : List α) :
    firsts key (a :: rest) = a :: (firsts key rest).filter (key · ≠ key a) := rfl

theorem firsts_sublist (key : α → κ) (l : List α) : (firsts key l).Sublist l := by
  induction l with
  | nil => exact .slnil
  | cons a rest ih => exact ((List.filter_sublist).trans ih).cons_cons a

/-- No two of them have the same key. -/
theorem pairwise_firsts (key : α → κ) (l : List α) : (firsts key l).Pairwise (key · ≠ key ·) := by
  induction l with
  | nil => exact .nil
  | cons a rest ih =>
    rw [firsts_cons, List.pairwise_cons]
    refine ⟨fun b hb => ?_, ih.filter _⟩
    have hother : key b ≠ key a := by simpa using (List.mem_filter.1 hb).2
    exact hother.symm

/-- The first element with some key is one of them. -/
theorem find?_firsts (k : κ) (l : List α) : (firsts key l).find? (key · = k) = l.find? (key · = k) := by
  induction l with
  | nil => rfl
  | cons a rest ih =>
    rw [firsts_cons]
    by_cases hk : key a = k
    · simp [hk]
    · -- what is left out has another key than the one that is looked for
      rw [List.find?_cons_of_neg (by simpa using hk), List.find?_cons_of_neg (by simpa using hk), ← ih,
        List.find?_filter]
      congr 1
      funext b
      by_cases hb : key b = k
      · simp [hb, Ne.symm hk]
      · simp [hb]

/-- Where no key comes twice, each leads to its element. -/
theorem find?_of_mem (h : l.Pairwise (key · ≠ key ·)) (ha : a ∈ l) : l.find? (key · = key a) = some a := by
  induction l with
  | nil => cases ha
  | cons b rest ih =>
    obtain ⟨hb, hrest⟩ := List.pairwise_cons.1 h
    rcases List.mem_cons.1 ha with rfl | ha
    · rw [List.find?_cons_of_pos (by simp)]
    · rw [List.find?_cons_of_neg (by simpa using hb a ha), ih hrest ha]

theorem mem_firsts_iff : a ∈ firsts key l ↔ l.find? (key · = key a) = some a := by
  rw [← find?_firsts]
  exact ⟨find?_of_mem (pairwise_firsts key l), List.mem_of_find?_eq_some⟩

/-- Where no key comes twice, every element is the first one of its key. -/
theorem firsts_of_pairwise (h : l.Pairwise (key · ≠ key ·)) : firsts key l = l := by
  induction l with
  | nil => rfl
  | cons a rest ih =>
    obtain ⟨ha, hrest⟩ := List.pairwise_cons.1 h
    rw [firsts_cons, ih hrest, List.filter_eq_self.2 fun b hb => by simpa using (ha b hb).symm]

theorem firsts_map (f : β → α) (l : List β) : firsts key (l.map f) = (firsts (key <| f ·) l).map f := by
  induction l with
  | nil => rfl
  | cons b rest ih => simp [firsts_cons, ih, List.filter_map, Function.comp_def]

/-- Only which keys are the same matters. -/
theorem firsts_congr {key' : α → μ} (h : ∀ a ∈ l, ∀ b ∈ l, key a = key b ↔ key' a = key' b) :
    firsts key l = firsts key' l := by
  induction l with
  | nil => rfl
  | cons a rest ih =>
    rw [firsts_cons, firsts_cons, ih fun b hb c hc => h b (List.mem_cons_of_mem _ hb) c (List.mem_cons_of_mem _ hc)]
    congr 1
    apply List.filter_congr
    intro b hb
    have hmem := (firsts_sublist key' rest).subset hb
    simp [h b (List.mem_cons_of_mem _ hmem) a List.mem_cons_self]

/-- What comes behind counts where its key has not come before. -/
theorem firsts_append (key : α → κ) (l l' : List α) :
    firsts key (l ++ l') = firsts key l ++ (firsts key l').filter fun b => ∀ a ∈ l, key b ≠ key a := by
  induction l with
  | nil => exact (List.filter_eq_self.2 fun b _ => by simp).symm
  | cons a rest ih =>
    rw [List.cons_append, firsts_cons, ih, firsts_cons, List.filter_append, List.filter_filter, List.cons_append]
    congr 3
    funext b
    simp

end MemberAccess
