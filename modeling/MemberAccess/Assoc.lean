/-!
# Finite maps as lists of pairs

Keys appear at most once when a map is built by `put` from the empty one.

* `Assoc.get?_put`, `Assoc.get?_erase`: a map after a write or a removal.
* `Assoc.mem_put`: a write touches no other entry.
* `Assoc.keys_put_of_mem`: a write at a key that is there leaves the keys as they are.
-/

namespace MemberAccess.Assoc

variable {κ β : Type} [DecidableEq κ]

/-- The value at a key. -/
def get? (k : κ) : List (κ × β) → Option β
  | [] => none
  | (k', v) :: rest => if k' = k then some v else get? k rest

/-- The map with a value at a key, in the place of the one that was there or at the end. -/
def put (k : κ) (v : β) : List (κ × β) → List (κ × β)
  | [] => [(k, v)]
  | (k', v') :: rest => if k' = k then (k, v) :: rest else (k', v') :: put k v rest

/-- The map without a key. -/
def erase (k : κ) (m : List (κ × β)) : List (κ × β) := m.filter fun e => e.1 ≠ k

/-- The map of a list of pairs, later ones first. -/
def ofList (entries : List (κ × β)) : List (κ × β) := entries.foldl (fun m e => put e.1 e.2 m) []

theorem get?_put (k j : κ) (v : β) (m : List (κ × β)) :
    get? j (put k v m) = if k = j then some v else get? j m := by
  induction m with
  | nil => simp [put, get?]
  | cons e rest ih =>
    obtain ⟨i, w⟩ := e
    by_cases hik : i = k
    · subst hik
      by_cases hij : i = j <;> simp [put, get?, hij]
    · by_cases hij : i = j
      · subst hij
        simp [put, get?, hik, Ne.symm hik]
      · simp [put, get?, hik, hij, ih]

theorem get?_erase (k j : κ) (m : List (κ × β)) :
    get? j (erase k m) = if k = j then none else get? j m := by
  induction m with
  | nil => simp [erase, get?]
  | cons e rest ih =>
    obtain ⟨i, w⟩ := e
    by_cases hik : i = k
    · subst hik
      by_cases hij : i = j <;> simp_all [erase, get?]
    · by_cases hij : i = j
      · subst hij
        simp_all [erase, get?]
        intro h; exact absurd h.symm hik
      · simp_all [erase, get?]

theorem mem_of_get? {k : κ} {v : β} {m : List (κ × β)} (h : get? k m = some v) : (k, v) ∈ m := by
  induction m with
  | nil => cases h
  | cons e rest ih =>
    obtain ⟨i, w⟩ := e
    unfold get? at h
    split at h
    · rename_i hik
      subst hik
      rw [Option.some.inj h]
      exact List.mem_cons_self
    · exact List.mem_cons_of_mem _ (ih h)

theorem get?_eq_none_iff {k : κ} {m : List (κ × β)} : get? k m = none ↔ k ∉ m.map (·.1) := by
  induction m with
  | nil => simp [get?]
  | cons e rest ih =>
    obtain ⟨i, w⟩ := e
    by_cases hik : i = k
    · simp [get?, hik]
    · simp [get?, hik, ih, Ne.symm hik]

/-- A write touches no other entry. -/
theorem mem_put {k : κ} {v : β} {m : List (κ × β)} {e : κ × β} (h : e ∈ put k v m) :
    e = (k, v) ∨ e ∈ m := by
  induction m with
  | nil => exact Or.inl (List.mem_singleton.1 h)
  | cons f rest ih =>
    obtain ⟨i, w⟩ := f
    unfold put at h
    split at h
    · rcases List.mem_cons.1 h with h | h
      · exact Or.inl h
      · exact Or.inr (List.mem_cons_of_mem _ h)
    · rcases List.mem_cons.1 h with h | h
      · exact Or.inr (h ▸ List.mem_cons_self)
      · exact (ih h).imp_right (List.mem_cons_of_mem _)

/-- A write at a key that was not there goes to the end. -/
theorem put_of_get?_eq_none {k : κ} {v : β} {m : List (κ × β)} (h : get? k m = none) :
    put k v m = m ++ [(k, v)] := by
  induction m with
  | nil => rfl
  | cons f rest ih =>
    obtain ⟨i, w⟩ := f
    unfold get? at h
    split at h
    · cases h
    · rename_i hik
      simp [put, hik, ih h]

theorem keys_put_of_mem {k : κ} {v : β} {m : List (κ × β)} (h : k ∈ m.map (·.1)) :
    (put k v m).map (·.1) = m.map (·.1) := by
  induction m with
  | nil => cases h
  | cons f rest ih =>
    obtain ⟨i, w⟩ := f
    by_cases hik : i = k
    · simp [put, hik]
    · simp only [List.map_cons, List.mem_cons, Ne.symm hik, false_or] at h
      simp [put, hik, ih h]

/-- The value at a key, when every value is changed in the same way. -/
theorem get?_map (f : β → β) (k : κ) (m : List (κ × β)) :
    get? k (m.map fun e => (e.1, f e.2)) = (get? k m).map f := by
  induction m with
  | nil => rfl
  | cons e rest ih =>
    obtain ⟨i, w⟩ := e
    by_cases hik : i = k
    · simp [get?, hik]
    · simp [get?, hik, ih]

end MemberAccess.Assoc
