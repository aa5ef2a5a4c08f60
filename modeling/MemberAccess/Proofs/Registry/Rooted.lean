import MemberAccess.Proofs.Registry.Reach
import MemberAccess.Proofs.Registry.Store

/-!
# The root of the hierarchy

Nothing bounds the search for members: it goes up the superclass chain without keeping account of where it has
been, and into every interface that it has not met. It comes to an end because no class is above itself. Above
every class, at last, is the root.

* `Registry.Visits`, `Registry.Climbs`: the search for members, with no bound on it.
* `climbs_lineage`: it comes to an end on every class, and has found the lineage then.
* `reaches_object`, `not_above_self`: the root is above every class, and no class above itself.
* `Store.rooted_serveAll`: the hierarchy of every store is rooted.
-/

namespace MemberAccess

namespace Registry

open Relation (TransGen)

variable {r : Registry} {c s : ClassId} {d : ClassDef}

/-! ## The search for members -/

/-- Going into interfaces, one after the other and each before those beside it, unless it has been met. -/
inductive Visits (r : Registry) : List ClassId → Walk → Walk → Prop
  | done {w} : Visits r [] w w
  | met {i rest w w'} (hi : i ∈ w.met) (hrest : Visits r rest w w') : Visits r (i :: rest) w w'
  | unknown {i rest w w'} (hi : i ∉ w.met) (hnone : r.class? i = none)
      (hrest : Visits r rest { w with met := i :: w.met } w') : Visits r (i :: rest) w w'
  | enter {i d rest w w₁ w'} (hi : i ∉ w.met) (hd : r.class? i = some d)
      (hbelow : Visits r d.interfaces ⟨i :: w.met, w.found ++ [d]⟩ w₁) (hrest : Visits r rest w₁ w') :
      Visits r (i :: rest) w w'

/-- Going up from a class: it, its interfaces, and then the same from its superclass, as long as there is one. -/
inductive Climbs (r : Registry) : Option ClassDef → Walk → Walk → Prop
  | top {w} : Climbs r none w w
  | up {d w w₁ w'} (hhere : Visits r d.interfaces { w with found := w.found ++ [d] } w₁)
      (hrest : Climbs r (d.superclass.bind r.class?) w₁ w') : Climbs r (some d) w w'

/-- From one state, interfaces are visited in one way. -/
theorem Visits.unique {interfaces : List ClassId} {w w₁ w₂ : Walk} (h₁ : r.Visits interfaces w w₁)
    (h₂ : r.Visits interfaces w w₂) : w₁ = w₂ := by
  induction h₁ generalizing w₂ with
  | done => cases h₂; rfl
  | met hi _ ih =>
    cases h₂ with
    | met _ hrest => exact ih hrest
    | unknown hi' | enter hi' => exact absurd hi hi'
  | unknown hi hnone _ ih =>
    cases h₂ with
    | met hi' => exact absurd hi' hi
    | unknown _ _ hrest => exact ih hrest
    | enter _ hd => rw [hnone] at hd; cases hd
  | enter hi hd _ _ ihbelow ihrest =>
    cases h₂ with
    | met hi' => exact absurd hi' hi
    | unknown _ hnone => rw [hnone] at hd; cases hd
    | enter _ hd' hbelow hrest =>
      rw [hd] at hd'
      cases hd'
      rw [← ihbelow hbelow] at hrest
      exact ihrest hrest

theorem Climbs.unique {d : Option ClassDef} {w w₁ w₂ : Walk} (h₁ : r.Climbs d w w₁) (h₂ : r.Climbs d w w₂) :
    w₁ = w₂ := by
  induction h₁ generalizing w₂ with
  | top => cases h₂; rfl
  | up hhere _ ih =>
    cases h₂ with
    | up hhere' hrest =>
      rw [← hhere.unique hhere'] at hrest
      exact ih hrest

/-- A bound above the heights of some interfaces does not cut the visit short. -/
theorem visits_walk (hp : r.Proper) (n : Nat) : ∀ (interfaces : List ClassId) (w : Walk),
    (∀ i ∈ interfaces, i.height < n) → r.Visits interfaces w (r.walk n interfaces w) := by
  induction n with
  | zero =>
    intro interfaces w h
    cases interfaces with
    | nil => exact .done
    | cons i rest => exact absurd (h i List.mem_cons_self) (Nat.not_lt_zero _)
  | succ n ih =>
    intro interfaces
    induction interfaces with
    | nil => exact fun w _ => .done
    | cons i rest ihrest =>
      intro w h
      have hrest : ∀ w, r.Visits rest w (r.walk (n + 1) rest w) := fun w =>
        ihrest w fun j hj => h j (List.mem_cons_of_mem _ hj)
      rw [walk_cons]
      split
      · rename_i hi
        exact .met hi (hrest w)
      · rename_i hi
        cases hd : r.class? i with
        | none => exact .unknown hi hd (hrest _)
        | some d =>
          -- what an interface declares lies lower than it does
          have hbelow : ∀ j ∈ d.interfaces, j.height < n := by
            intro j hj
            have hlt := (hp.interface_above hd hj).2
            have hi := h i List.mem_cons_self
            omega
          exact .enter hi hd (ih d.interfaces _ hbelow) (hrest _)

/-- A bound on the height of a class does not cut its superclass chain short. -/
theorem climbs_chain (hp : r.Proper) (n : Nat) : ∀ {c : ClassId} {d : ClassDef} (w : Walk),
    r.class? c = some d → c.height ≤ n → r.Climbs (some d) w ((r.chain n d).foldl (fun w s =>
      r.walk (r.size + 1) s.interfaces { w with found := w.found ++ [s] }) w) := by
  have hvisits : ∀ {c d} (w : Walk), r.class? c = some d →
      r.Visits d.interfaces w (r.walk (r.size + 1) d.interfaces w) := by
    intro c d w hd
    apply visits_walk hp
    intro i hi
    have hlt := (hp.interface_above hd hi).2
    have hc := ClassId.height_lt hp.core (index_lt hd)
    omega
  induction n with
  | zero =>
    intro c d w hd hn
    have htop : d.superclass = none := by
      cases hs : d.superclass with
      | none => rfl
      | some s =>
        have hlt := (hp.superclass_above hd hs).2
        omega
    refine .up (hvisits _ hd) ?_
    rw [htop]
    exact .top
  | succ n ih =>
    intro c d w hd hn
    refine .up (hvisits _ hd) ?_
    cases hs : d.superclass with
    | none =>
      have hchain : r.chain (n + 1) d = [d] := by simp [chain, hs]
      rw [hchain]
      exact .top
    | some s =>
      obtain ⟨hknown, hlt⟩ := hp.superclass_above hd hs
      obtain ⟨e, he⟩ := exists_class hknown
      have hchain : r.chain (n + 1) d = d :: r.chain n e := by simp [chain, hs, he]
      rw [hchain, List.foldl_cons, Option.bind_some, he]
      exact ih _ he (by omega)

/-- **The search for members comes to an end**, in one way, and has found the lineage then. -/
theorem climbs_lineage (hp : r.Proper) (hd : r.class? c = some d) :
    ∃ w, (∀ w', r.Climbs (some d) {} w' ↔ w' = w) ∧ w.found = r.lineage d := by
  have hc := ClassId.height_lt hp.core (index_lt hd)
  have hclimbs := climbs_chain hp r.size {} hd (Nat.le_of_lt hc)
  refine ⟨_, fun w' => ⟨fun h => h.unique hclimbs, ?_⟩, rfl⟩
  rintro rfl
  exact hclimbs

/-! ## The graph -/

/-- An edge leads between registered classes, to one that lies lower. -/
theorem Proper.edge (hp : r.Proper) (h : r.Edge c s) :
    c.index < r.size ∧ s.index < r.size ∧ s.height < c.height := by
  cases hd : r.class? c with
  | none => simp [Edge, supertypes, hd] at h
  | some d => exact ⟨index_lt hd, hp.above hd s ((edge_iff hd).1 h)⟩

/-- Every edge is declared, a superclass, or the one to the root that a class without a superclass has. -/
theorem Proper.edge_cases (hp : r.Proper) : r.Edge c s ↔ r.Declares c s ∨ r.Extends c s ∨
    (c.index < r.size ∧ r.superclass? c = none ∧ c ≠ .object ∧ s = .object) := by
  constructor
  · intro h
    obtain ⟨d, hd⟩ := exists_class (hp.edge h).1
    have hs := (edge_iff hd).1 h
    unfold ClassDef.supertypes at hs
    rw [hp.id hd] at hs
    rcases List.mem_append.1 hs with hs | hs
    · exact .inl ((declares_iff hd).2 hs)
    · cases hsuper : d.superclass with
      | some s' =>
        rw [hsuper] at hs
        rw [List.mem_singleton.1 hs]
        exact .inr (.inl ((extends_iff hd).2 hsuper))
      | none =>
        simp only [hsuper] at hs
        split at hs
        · cases hs
        · rename_i hroot
          exact .inr (.inr ⟨index_lt hd, by simp [superclass?, hd, hsuper], hroot, List.mem_singleton.1 hs⟩)
  · rintro (h | h | ⟨hc, hsuper, hroot, rfl⟩)
    · exact h.edge
    · exact h.edge
    · obtain ⟨d, hd⟩ := exists_class hc
      have hnone : d.superclass = none := by simpa [superclass?, hd] using hsuper
      rw [edge_iff hd]
      unfold ClassDef.supertypes
      rw [hnone, hp.id hd]
      simp [hroot]

/-- What is above a class lies lower. -/
theorem Proper.height_lt (hp : r.Proper) (h : TransGen r.Edge c s) : s.height < c.height := by
  induction h with
  | single h => exact (hp.edge h).2.2
  | tail _ h ih => exact Nat.lt_trans (hp.edge h).2.2 ih

/-- **No class is above itself.** -/
theorem not_above_self (hp : r.Proper) (c : ClassId) : ¬TransGen r.Edge c c :=
  fun h => Nat.lt_irrefl _ (hp.height_lt h)

/-- **The root is above every class.** -/
theorem reaches_object (hp : r.Proper) (hc : c.index < r.size) : r.Reaches c .object := by
  -- a class other than the root has a superclass or an edge to the root, and each edge leads lower
  generalize hn : c.height = n
  induction n using Nat.strongRecOn generalizing c with
  | ind n ih =>
    by_cases hroot : c = .object
    · rw [hroot]
      exact .refl
    · cases hsuper : r.superclass? c with
      | none => exact .single (hp.edge_cases.2 (.inr (.inr ⟨hc, hsuper, hroot, rfl⟩)))
      | some s =>
        have hedge : r.Edge c s := Extends.edge hsuper
        obtain ⟨-, hs, hlt⟩ := hp.edge hedge
        exact .head hedge (ih s.height (hn ▸ hlt) hs rfl)

/-- **Every class is assignable to the root.** -/
theorem isAssignable_object (hp : r.Proper) (hinit : initial.GrowsTo r) (hc : c.index < r.size) :
    r.isAssignable c .object = true := by
  obtain ⟨d, hd⟩ := exists_class hc
  obtain ⟨root, hroot⟩ := exists_class (r := initial) (c := .object) (by decide)
  obtain ⟨decl, rfl⟩ := class?_initial hroot
  exact (isAssignable_iff_reaches hp hd (hinit.class?_some hroot) rfl).2 (reaches_object hp hc)

/-- A hierarchy with one root, in which no class is above itself. -/
structure Rooted (r : Registry) : Prop where
  edges : ∀ {c s}, r.Edge c s ↔ r.Declares c s ∨ r.Extends c s ∨
    (c.index < r.size ∧ r.superclass? c = none ∧ c ≠ .object ∧ s = .object)
  registered : ∀ {c s}, r.Edge c s → s.index < r.size
  acyclic : ∀ c, ¬TransGen r.Edge c c
  root : ∀ {c : ClassId}, c.index < r.size → r.Reaches c .object
  /-- the search for members comes to an end -/
  ends : ∀ {c d}, r.class? c = some d → ∃ w, (∀ w', r.Climbs (some d) {} w' ↔ w' = w) ∧ w.found = r.lineage d
  assignable : ∀ {c : ClassId}, c.index < r.size → r.isAssignable c .object = true

end Registry

/-- **The hierarchy of every store is rooted**, whatever it has been asked to do. -/
theorem Store.rooted_serveAll (heap : Heap) (qs : List Request) : ((start heap).serveAll qs).registry.Rooted := by
  obtain ⟨hp, hinit, -⟩ := served heap qs
  exact {
    edges := hp.edge_cases
    registered := fun h => (hp.edge h).2.1
    acyclic := Registry.not_above_self hp
    root := Registry.reaches_object hp
    ends := Registry.climbs_lineage hp
    assignable := Registry.isAssignable_object hp hinit
  }

end MemberAccess
