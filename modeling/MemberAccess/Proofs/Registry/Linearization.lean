import MemberAccess.Proofs.Registry.Order

/-!
# Linearizations

The **linearization** of a class is the sequence of the classes on its superclass chain, each followed by
the whole depth-first tree of the interfaces below it, in which an interface stands as often as there are
paths to it. A lineage is a linearization in which what has come up before is passed over.

* `Registry.Unfolds`, `Registry.Linearized`: the tree of some interfaces, the linearization of a class.
* `exists_linearized`: every registered class has one.
* `Skips`: a sequence without some elements that have come up before.
* `skips_lineage`: a lineage, as such a sequence.
-/

namespace MemberAccess

/-! ## Sequences with repetitions passed over -/

/-- The last sequence is the one before it without some elements that stand earlier in it or in `seen`. -/
inductive Skips {α : Type} : List α → List α → List α → Prop
  | nil {seen} : Skips seen [] []
  | keep {seen a full kept} (rest : Skips (a :: seen) full kept) : Skips seen (a :: full) (a :: kept)
  | skip {seen a full kept} (ha : a ∈ seen) (rest : Skips seen full kept) : Skips seen (a :: full) kept

namespace Skips

variable {α : Type} {seen seen' full full' kept kept' : List α}

theorem mono (h : Skips seen full kept) (hs : seen ⊆ seen') : Skips seen' full kept := by
  induction h generalizing seen' with
  | nil => exact .nil
  | keep _ ih => exact .keep (ih (List.cons_subset_cons _ hs))
  | skip ha _ ih => exact .skip (hs ha) (ih hs)

/-- What has come up before altogether may be passed over altogether. -/
theorem of_subset (h : full ⊆ seen) : Skips seen full [] := by
  induction full with
  | nil => exact .nil
  | cons a full ih => exact .skip (h List.mem_cons_self) (ih fun x hx => h (List.mem_cons_of_mem _ hx))

theorem append (h : Skips seen full kept) (h' : Skips (kept ++ seen) full' kept') :
    Skips seen (full ++ full') (kept ++ kept') := by
  induction h with
  | nil => exact h'
  | keep _ ih =>
    apply keep
    apply ih
    apply h'.mono
    intro x hx
    simp only [List.cons_append, List.mem_cons, List.mem_append] at hx ⊢
    tauto
  | skip ha _ ih => exact .skip ha (ih h')

/-- An element, and what follows it in two parts. -/
theorem node {a : α} (h : Skips (seen ++ [a]) full kept) (h' : Skips (seen ++ [a] ++ kept) full' kept') :
    Skips seen (a :: (full ++ full')) (a :: (kept ++ kept')) := by
  refine .keep ((h.mono fun x hx => ?_).append (h'.mono fun x hx => ?_))
  · simpa [or_comm] using hx
  · simp only [List.mem_append, List.mem_cons, List.not_mem_nil, or_false] at hx ⊢
    tauto

/-- What is passed over has come up before, so nothing is lost. -/
theorem mem (h : Skips seen full kept) {a : α} (ha : a ∈ full) : a ∈ seen ∨ a ∈ kept := by
  induction h with
  | nil => cases ha
  | keep _ ih =>
    rcases List.mem_cons.1 ha with rfl | ha
    · exact Or.inr List.mem_cons_self
    · rcases ih ha with hs | hk
      · rcases List.mem_cons.1 hs with rfl | hs
        · exact Or.inr List.mem_cons_self
        · exact Or.inl hs
      · exact Or.inr (List.mem_cons_of_mem _ hk)
  | skip hs _ ih =>
    rcases List.mem_cons.1 ha with rfl | ha
    · exact Or.inl hs
    · exact ih ha

/-- Nothing is added. -/
theorem subset (h : Skips seen full kept) : kept ⊆ full := by
  induction h with
  | nil => exact List.Subset.refl _
  | keep _ ih => exact List.cons_subset_cons _ ih
  | skip _ _ ih => exact List.subset_cons_of_subset _ ih

end Skips

namespace Registry

variable {r : Registry}

/-- The whole tree of some interfaces in depth-first order: each of them, followed by the tree of those
that it declares itself. -/
inductive Unfolds (r : Registry) : List ClassId → List ClassDef → Prop
  | nil : Unfolds r [] []
  | cons {i d rest below after} (hd : r.class? i = some d) (hbelow : Unfolds r d.interfaces below)
      (hafter : Unfolds r rest after) : Unfolds r (i :: rest) (d :: (below ++ after))

/-- A class and the tree of its interfaces, and the same for each class above it on the superclass chain. -/
inductive Linearized (r : Registry) : ClassDef → List ClassDef → Prop
  | top {d tree} (hs : d.superclass = none) (htree : Unfolds r d.interfaces tree) : Linearized r d (d :: tree)
  | extend {d s e tree rest} (hs : d.superclass = some s) (he : r.class? s = some e)
      (htree : Unfolds r d.interfaces tree) (hrest : Linearized r e rest) :
      Linearized r d (d :: (tree ++ rest))

/-! ## Every class has a linearization -/

theorem exists_unfolds (hp : r.Proper) (n : Nat) : ∀ interfaces : List ClassId,
    (∀ i ∈ interfaces, i.index < r.size ∧ i.height < n) → ∃ tree, r.Unfolds interfaces tree := by
  induction n with
  | zero =>
    intro interfaces h
    cases interfaces with
    | nil => exact ⟨[], .nil⟩
    | cons i rest => exact absurd (h i List.mem_cons_self).2 (Nat.not_lt_zero _)
  | succ n ih =>
    intro interfaces h
    induction interfaces with
    | nil => exact ⟨[], .nil⟩
    | cons i rest ihl =>
      obtain ⟨hi, hn⟩ := h i List.mem_cons_self
      obtain ⟨d, hd⟩ := exists_class hi
      -- the interfaces below are lower, those beside come later in the same list
      obtain ⟨below, hbelow⟩ := ih d.interfaces fun j hj => by
        have := hp.interface_above hd hj
        omega
      obtain ⟨after, hafter⟩ := ihl fun j hj => h j (List.mem_cons_of_mem _ hj)
      exact ⟨_, .cons hd hbelow hafter⟩

/-- **A registered class has a linearization.** -/
theorem exists_linearized (hp : r.Proper) {c : ClassId} {d : ClassDef} (hd : r.class? c = some d) :
    ∃ L, r.Linearized d L := by
  -- by induction on the height: a superclass lies lower
  generalize hn : c.height = n
  induction n using Nat.strongRecOn generalizing c d with
  | ind n ih =>
    obtain ⟨tree, htree⟩ := exists_unfolds hp c.height d.interfaces fun i hi => hp.interface_above hd hi
    cases hs : d.superclass with
    | none => exact ⟨_, .top hs htree⟩
    | some s =>
      obtain ⟨hknown, hlt⟩ := hp.superclass_above hd hs
      obtain ⟨e, he⟩ := exists_class hknown
      obtain ⟨rest, hrest⟩ := ih s.height (hn ▸ hlt) he rfl
      exact ⟨_, .extend hs he htree hrest⟩

/-! ## The lineage of a class -/

/-- The tree of an interface has been found altogether. -/
def Covered (r : Registry) (found : List ClassDef) (i : ClassId) : Prop :=
  ∀ d below, r.class? i = some d → r.Unfolds d.interfaces below → d ∈ found ∧ below ⊆ found

theorem Covered.mono {found found' : List ClassDef} {i : ClassId} (h : r.Covered found i) (hs : found ⊆ found') :
    r.Covered found' i := by
  intro d below hd hbelow
  obtain ⟨hmem, hsub⟩ := h d below hd hbelow
  exact ⟨hs hmem, fun x hx => hs (hsub hx)⟩

theorem Unfolds.unique {interfaces : List ClassId} {tree tree' : List ClassDef} (h : r.Unfolds interfaces tree)
    (h' : r.Unfolds interfaces tree') : tree = tree' := by
  induction h generalizing tree' with
  | nil => cases h'; rfl
  | cons hd _ _ ihbelow ihafter =>
    cases h' with
    | cons hd' hbelow' hafter' =>
      rw [hd] at hd'
      cases hd'
      rw [ihbelow hbelow', ihafter hafter']

/-- What a walk adds to the state it starts from: the tree of the interfaces, with what has come up
before passed over, and only interfaces whose trees it has found. -/
structure Walk.Adds (r : Registry) (w w' : Walk) (tree : List ClassDef) : Prop where
  found : ∃ new, w'.found = w.found ++ new ∧ Skips w.found tree new
  met : ∀ i ∈ w'.met, i ∈ w.met ∨ r.Covered w'.found i

theorem walk_cons (r : Registry) (n : Nat) (i : ClassId) (rest : List ClassId) (w : Walk) :
    r.walk (n + 1) (i :: rest) w = r.walk (n + 1) rest (if i ∈ w.met then w else
      match r.class? i with
      | some d => r.walk n d.interfaces { met := i :: w.met, found := w.found ++ [d] }
      | none => { w with met := i :: w.met }) := rfl

/-- **A walk finds the tree.** Interfaces met before count as found; those that the walk has entered and
not left yet are not, but they lie higher, and no tree leads up. -/
theorem walk_adds (hp : r.Proper) {interfaces : List ClassId} {tree : List ClassDef}
    (htree : r.Unfolds interfaces tree) : ∀ {n h : Nat} {w : Walk}, h ≤ n → (∀ i ∈ interfaces, i.height < h) →
      (∀ i ∈ w.met, i.height < h → r.Covered w.found i) → w.Adds r (r.walk n interfaces w) tree := by
  induction htree with
  | nil =>
    intro n h w _ _ _
    have hwalk : r.walk n [] w = w := by cases n <;> rfl
    rw [hwalk]
    exact ⟨⟨[], (List.append_nil _).symm, .nil⟩, fun i hi => Or.inl hi⟩
  | @cons i d rest below after hd hbelow hafter ihbelow ihafter =>
    intro n h w hn hlow hmet
    have hi := hlow i List.mem_cons_self
    have hrest := fun j hj => hlow j (List.mem_cons_of_mem i hj)
    obtain ⟨n, rfl⟩ : ∃ m, n = m + 1 := ⟨n - 1, by omega⟩
    rw [walk_cons]
    split
    · -- met before: its tree has been found, and is passed over
      rename_i hmem
      obtain ⟨hdfound, hsub⟩ := hmet i hmem hi d below hd hbelow
      obtain ⟨⟨new, hfound, hskips⟩, hmet'⟩ := ihafter hn hrest hmet
      exact ⟨⟨new, hfound, .skip hdfound ((Skips.of_subset hsub).append hskips)⟩, hmet'⟩
    · rw [hd]
      simp only
      -- first what lies below the interface
      have hbelow' := ihbelow (n := n) (h := i.height) (w := ⟨i :: w.met, w.found ++ [d]⟩) (by omega)
        (fun j hj => (hp.interface_above hd hj).2) (by
          intro j hj hlt
          rcases List.mem_cons.1 hj with rfl | hj
          · exact absurd hlt (Nat.lt_irrefl _)
          · exact (hmet j hj (by omega)).mono (List.subset_append_left _ _))
      generalize r.walk n d.interfaces ⟨i :: w.met, w.found ++ [d]⟩ = w₁ at hbelow'
      obtain ⟨⟨new₁, hfound₁, hskips₁⟩, hmet₁⟩ := hbelow'
      have hgrows : w.found ⊆ w₁.found := by
        rw [hfound₁, List.append_assoc]
        exact List.subset_append_left _ _
      have hcovered : r.Covered w₁.found i := by
        intro d' below' hd' hbelow''
        rw [hd] at hd'
        cases hd'
        rw [hbelow''.unique hbelow, hfound₁]
        refine ⟨by simp, fun x hx => ?_⟩
        rcases hskips₁.mem hx with hx | hx
        · exact List.mem_append_left _ hx
        · exact List.mem_append_right _ hx
      have hstep : ∀ j ∈ w₁.met, j ∈ w.met ∨ r.Covered w₁.found j := by
        intro j hj
        rcases hmet₁ j hj with hj | hj
        · rcases List.mem_cons.1 hj with rfl | hj
          · exact Or.inr hcovered
          · exact Or.inl hj
        · exact Or.inr hj
      -- then what stands beside it
      obtain ⟨⟨new₂, hfound₂, hskips₂⟩, hmet₂⟩ := ihafter (w := w₁) hn hrest (by
        intro j hj hlt
        rcases hstep j hj with hj | hj
        · exact (hmet j hj hlt).mono hgrows
        · exact hj)
      refine ⟨⟨d :: (new₁ ++ new₂), by rw [hfound₂, hfound₁]; simp, .node hskips₁ (hfound₁ ▸ hskips₂)⟩, ?_⟩
      · intro j hj
        rcases hmet₂ j hj with hj | hj
        · rcases hstep j hj with hj | hj
          · exact Or.inl hj
          · refine Or.inr (hj.mono ?_)
            rw [hfound₂]
            exact List.subset_append_left _ _
        · exact Or.inr hj

/-- The walks along a superclass chain find the linearization of its first class. -/
theorem chain_adds (hp : r.Proper) {d : ClassDef} {L : List ClassDef} (hL : r.Linearized d L) :
    ∀ {c : ClassId} {n : Nat} {w : Walk}, r.class? c = some d → c.height ≤ n →
      (∀ i ∈ w.met, r.Covered w.found i) → ∃ new, ((r.chain n d).foldl (fun w s =>
        r.walk (r.size + 1) s.interfaces { w with found := w.found ++ [s] }) w).found = w.found ++ new ∧
          Skips w.found L new := by
  -- one class: the class itself, and the walk over its interfaces
  have hclass : ∀ {c : ClassId} {d : ClassDef} {tree : List ClassDef} {w : Walk}, r.class? c = some d →
      r.Unfolds d.interfaces tree → (∀ i ∈ w.met, r.Covered w.found i) →
      Walk.Adds r { w with found := w.found ++ [d] }
        (r.walk (r.size + 1) d.interfaces { w with found := w.found ++ [d] }) tree := by
    intro c d tree w hd htree hmet
    have hc := ClassId.height_lt hp.core (index_lt hd)
    refine walk_adds hp htree (Nat.le_refl _) ?_ ?_
    · intro i hi
      have := (hp.interface_above hd hi).2
      omega
    · exact fun i hi _ => (hmet i hi).mono (List.subset_append_left _ _)
  induction hL with
  | @top d tree hs htree =>
    intro c n w hd _ hmet
    have hchain : r.chain n d = [d] := by cases n <;> simp [chain, hs]
    obtain ⟨⟨new, hfound, hskips⟩, -⟩ := hclass hd htree hmet
    rw [hchain, List.foldl_cons, List.foldl_nil, hfound]
    refine ⟨d :: new, by simp, ?_⟩
    simpa using Skips.node hskips .nil
  | @extend d s e tree rest hs he htree hrest ih =>
    intro c n w hd hn hmet
    obtain ⟨hknown, hlt⟩ := hp.superclass_above hd hs
    obtain ⟨n, rfl⟩ : ∃ m, n = m + 1 := ⟨n - 1, by omega⟩
    have hchain : r.chain (n + 1) d = d :: r.chain n e := by simp [chain, hs, he]
    rw [hchain, List.foldl_cons]
    have hadds := hclass hd htree hmet
    generalize r.walk (r.size + 1) d.interfaces { w with found := w.found ++ [d] } = w₁ at hadds
    obtain ⟨⟨new₁, hfound₁, hskips₁⟩, hmet₁⟩ := hadds
    have hgrows : w.found ⊆ w₁.found := by
      rw [hfound₁, List.append_assoc]
      exact List.subset_append_left _ _
    obtain ⟨new₂, hfound₂, hskips₂⟩ := ih (n := n) (w := w₁) he (by omega) (by
      intro i hi
      rcases hmet₁ i hi with hi | hi
      · exact (hmet i hi).mono hgrows
      · exact hi)
    exact ⟨d :: (new₁ ++ new₂), by rw [hfound₂, hfound₁]; simp, .node hskips₁ (hfound₁ ▸ hskips₂)⟩

/-- **A lineage is the linearization with some repetitions passed over.** -/
theorem skips_lineage (hp : r.Proper) {c : ClassId} {d : ClassDef} {L : List ClassDef}
    (hd : r.class? c = some d) (hL : r.Linearized d L) : Skips [] L (r.lineage d) := by
  have hc := ClassId.height_lt hp.core (index_lt hd)
  obtain ⟨new, hfound, hskips⟩ := chain_adds hp hL (w := {}) hd (Nat.le_of_lt hc) (fun i hi => by cases hi)
  unfold lineage
  rw [hfound]
  exact hskips

end Registry

end MemberAccess
