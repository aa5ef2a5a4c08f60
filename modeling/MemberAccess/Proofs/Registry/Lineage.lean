import MemberAccess.Proofs.Registry.Order

/-!
# Lineages

The lineage of a registered class consists of registered classes, and it is the same in every later
registry: the searches along it are bounded by the number of classes, which grows, but since supertypes
lie lower every bound is far enough.

* `Registry.mem_lineage`, `Registry.lineage_growsTo`.
-/

namespace MemberAccess

namespace Registry

/-- A walk finds registered classes. -/
theorem found_walk (r : Registry) : ∀ n interfaces w, (∀ x ∈ w.found, ∃ c, r.class? c = some x) →
    ∀ x ∈ (r.walk n interfaces w).found, ∃ c, r.class? c = some x := by
  intro n
  induction n with
  | zero => intro interfaces w hw; exact hw
  | succ n ih =>
    intro interfaces
    unfold walk
    -- within one bound, one interface after the other
    induction interfaces with
    | nil => intro w hw; exact hw
    | cons i rest ihl =>
      intro w hw
      rw [List.foldl_cons]
      apply ihl
      split
      · exact hw
      · simp only
        split
        · rename_i d hd
          apply ih
          intro x hx
          rcases List.mem_append.1 hx with hx | hx
          · exact hw x hx
          · exact ⟨i, by rw [List.mem_singleton.1 hx, hd]⟩
        · exact hw

theorem mem_chain (r : Registry) : ∀ n (d : ClassDef), (∃ c, r.class? c = some d) →
    ∀ x ∈ r.chain n d, ∃ c, r.class? c = some x := by
  intro n
  induction n with
  | zero => intro d hd x hx; rw [List.mem_singleton.1 hx]; exact hd
  | succ n ih =>
    intro d hd x hx
    unfold chain at hx
    rcases List.mem_cons.1 hx with rfl | hx
    · exact hd
    · split at hx
      · rename_i s hs
        obtain ⟨c, -, hc⟩ := Option.bind_eq_some_iff.1 hs
        exact ih s ⟨c, hc⟩ x hx
      · cases hx

/-- **The lineage of a registered class consists of registered classes.** -/
theorem mem_lineage {r : Registry} {d : ClassDef} (hd : ∃ c, r.class? c = some d) :
    ∀ x ∈ r.lineage d, ∃ c, r.class? c = some x := by
  unfold lineage
  -- for any list in place of the chain, and any state in place of the empty one
  suffices ∀ (l : List ClassDef) (w : Walk), (∀ x ∈ l, ∃ c, r.class? c = some x) →
      (∀ x ∈ w.found, ∃ c, r.class? c = some x) →
      ∀ x ∈ (l.foldl (fun w s => r.walk (r.size + 1) s.interfaces { w with found := w.found ++ [s] }) w).found,
        ∃ c, r.class? c = some x from
    this _ {} (r.mem_chain _ d hd) (fun x hx => by cases hx)
  intro l
  induction l with
  | nil => intro w _ hw; exact hw
  | cons s rest ih =>
    intro w hl hw
    rw [List.foldl_cons]
    apply ih _ (fun x hx => hl x (List.mem_cons_of_mem _ hx))
    apply found_walk
    intro x hx
    rcases List.mem_append.1 hx with hx | hx
    · exact hw x hx
    · rw [List.mem_singleton.1 hx]; exact hl s List.mem_cons_self

variable {r r' : Registry}

/-- A bound on the height of a class is enough for its superclass chain. -/
theorem chain_growsTo (hp : r.Proper) (hr : r.GrowsTo r') : ∀ n n' {c : ClassId} {d : ClassDef},
    r.class? c = some d → c.height ≤ n → c.height ≤ n' → r'.chain n' d = r.chain n d := by
  -- nothing lies below height 0
  have hlowest : ∀ {c d}, r.class? c = some d → c.height ≤ 0 → d.superclass = none := by
    intro c d hd hc
    cases hs : d.superclass with
    | none => rfl
    | some s =>
      have := (hp.superclass_above hd hs).2
      omega
  intro n
  induction n with
  | zero =>
    intro n' c d hd hn hn'
    cases n' with
    | zero => rfl
    | succ n' =>
      unfold chain
      rw [hlowest hd hn]
      rfl
  | succ n ih =>
    intro n' c d hd hn hn'
    cases n' with
    | zero =>
      unfold chain
      rw [hlowest hd hn']
      rfl
    | succ n' =>
      unfold chain
      cases hs : d.superclass with
      | none => rfl
      | some s =>
        -- the superclass lies lower, so both bounds less one are enough for it
        obtain ⟨hknown, hlt⟩ := hp.superclass_above hd hs
        obtain ⟨e, he⟩ := exists_class hknown
        simp only [Option.bind_some, hr.class?_eq hknown, he]
        rw [ih n' he (by omega) (by omega)]

/-- A bound above the heights of some interfaces is enough for a walk over them. -/
theorem walk_growsTo (hp : r.Proper) (hr : r.GrowsTo r') : ∀ n n' (interfaces : List ClassId) (w : Walk),
    (∀ i ∈ interfaces, i.index < r.size ∧ i.height < n ∧ i.height < n') →
    r'.walk n' interfaces w = r.walk n interfaces w := by
  have hempty : ∀ (r : Registry) n w, r.walk n [] w = w := by
    intro r n w
    cases n <;> rfl
  intro n
  induction n with
  | zero =>
    intro n' interfaces w h
    cases interfaces with
    | nil => rw [hempty, hempty]
    | cons i rest => exact absurd (h i List.mem_cons_self).2.1 (Nat.not_lt_zero _)
  | succ n ih =>
    intro n' interfaces w h
    cases n' with
    | zero =>
      cases interfaces with
      | nil => rw [hempty, hempty]
      | cons i rest => exact absurd (h i List.mem_cons_self).2.2 (Nat.not_lt_zero _)
    | succ n' =>
      -- the walk is a fold: one interface after the other, from the same state on both sides
      unfold walk
      induction interfaces generalizing w with
      | nil => rfl
      | cons i rest ihl =>
        rw [List.foldl_cons, List.foldl_cons]
        rw [ihl _ fun j hj => h j (List.mem_cons_of_mem _ hj)]
        congr 1
        split
        · rfl
        · obtain ⟨hknown, hn, hn'⟩ := h i List.mem_cons_self
          obtain ⟨d, hd⟩ := exists_class hknown
          simp only [hr.class?_eq hknown, hd]
          -- the interfaces of an interface lie lower still
          apply ih
          intro j hj
          have := hp.interface_above hd hj
          omega

/-- **The lineage of a class is the same in every later registry.** -/
theorem lineage_growsTo (hp : r.Proper) (hr : r.GrowsTo r') {c : ClassId} {d : ClassDef}
    (hd : r.class? c = some d) : r'.lineage d = r.lineage d := by
  have hheight : ∀ {c d}, r.class? c = some d → c.height < r.size := fun hd =>
    ClassId.height_lt hp.core (index_lt hd)
  have hsize := hr.size_le
  have hc := hheight hd
  unfold lineage
  rw [chain_growsTo hp hr r.size r'.size hd (by omega) (by omega)]
  -- the chain is one list of registered classes by now, and the walks from it are the same
  suffices ∀ (l : List ClassDef) (w : Walk), (∀ s ∈ l, ∃ c, r.class? c = some s) →
      l.foldl (fun w s => r'.walk (r'.size + 1) s.interfaces { w with found := w.found ++ [s] }) w =
        l.foldl (fun w s => r.walk (r.size + 1) s.interfaces { w with found := w.found ++ [s] }) w by
    rw [this _ {} (r.mem_chain r.size d ⟨c, hd⟩)]
  intro l
  induction l with
  | nil => intro w _; rfl
  | cons s rest ih =>
    intro w hl
    obtain ⟨e, he⟩ := hl s List.mem_cons_self
    rw [List.foldl_cons, List.foldl_cons]
    rw [walk_growsTo hp hr (r.size + 1) (r'.size + 1)]
    · exact ih _ fun x hx => hl x (List.mem_cons_of_mem _ hx)
    · intro i hi
      have hlow := hp.interface_above he hi
      have := hheight he
      omega

end Registry

end MemberAccess
