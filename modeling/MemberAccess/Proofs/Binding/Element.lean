import MemberAccess.Proofs.Binding.Bare
import MemberAccess.Proofs.Binding.OtherKey

/-!
# Writers for arrays

Whatever order an engine searches in, and whatever it has been asked before, a search for a writer on an array class
finds one way only: the elements, for a property that stands for an index. There is no map behind an array, no
field, and no method that is named like a writer.

* `Search.Yields`: a search that gives one answer from all memories with a property.
* `Introspector.Orderly`: the property of memories that is needed here, and `Orderly.touch`: touches keep it.
* `Resolver.yields_firstWriter`: the writer that is found on an array class.
-/

namespace MemberAccess

variable {α β : Type} {I : Introspector → Prop} {r : Registry} {c : ClassId} {k : Introspector}

namespace Search

/-- From memories with a property, the search gives one answer and leads to memories with the property. -/
def Yields (I : Introspector → Prop) (S : Search α) (a : α) : Prop := ∀ k, I k → (S k).1 = .ok a ∧ I (S k).2

theorem yields_pure (a : α) : Yields I (pure a : Search α) a := fun _ hk => ⟨rfl, hk⟩

theorem Yields.bind {S : Search α} {f : α → Search β} {a : α} {b : β} (h : S.Yields I a) (hf : (f a).Yields I b) :
    (S >>= f).Yields I b := by
  intro k hk
  obtain ⟨ha, hk'⟩ := h k hk
  rw [bind_apply]
  rcases hs : S k with ⟨answer, k'⟩
  rw [hs] at ha hk'
  cases ha
  exact hf k' hk'

/-- An answer, taken further without asking. -/
theorem Yields.map {S : Search α} {a : α} (h : S.Yields I a) (f : α → β) : Yields I (do pure (f (← S))) (f a) :=
  h.bind (yields_pure (f a))

/-- **Of several searches, the first one that finds something alive decides**; here there is one thing that any of
them may find. -/
theorem yields_firstAlive {alive : β → Bool} {b? : Option β} {order : List Resolver}
    {find : Resolver → Search (Option β)} (halive : ∀ b ∈ b?, alive b = true)
    (hlist : (find .list).Yields I b?) (hother : ∀ x, x ≠ .list → (find x).Yields I none) :
    (firstAlive alive (order.map find)).Yields I (if .list ∈ order then b? else none) := by
  induction order with
  | nil => exact yields_pure none
  | cons x rest ih =>
    by_cases hx : x = .list
    · subst hx
      rw [if_pos List.mem_cons_self]
      refine hlist.bind ?_
      cases b? with
      | none =>
        -- the search goes on, and the others find nothing either
        simp only [Option.filter_none]
        rwa [ite_self] at ih
      | some b =>
        simp only [Option.filter_some_pos (halive b rfl)]
        exact yields_pure (some b)
    · have hmem : .list ∈ x :: rest ↔ .list ∈ rest := by simp [Ne.symm hx]
      rw [if_congr hmem rfl rfl]
      exact (hother x hx).bind ih

end Search

/-! ## Memories -/

/-- A memory that is in order, with maps that are grounded and, for array classes, bare. -/
structure Introspector.Orderly (r : Registry) (k : Introspector) : Prop where
  inOrder : k.InOrder
  grounded : k.Grounded r
  bare : k.Bare r

/-- The name of a setter is none of the root's. -/
theorem Registry.setter_not_mem_rootNames (name : String) : "set" ++ name ∉ rootNames := by
  have hroot : ∀ n ∈ rootNames, n.toList.head? ≠ some 's' := by decide +kernel
  intro hmem
  apply hroot _ hmem
  simp

section Arrays

variable (hinit : Registry.initial.GrowsTo r) (hp : r.Proper) (hmade : r.Made)

include hinit hp hmade

theorem Introspector.Orderly.touch (hk : k.Orderly r) (t : Touch) : (k.touch r t).Orderly r where
  inOrder := inOrder_touch hk.inOrder r t
  grounded := grounded_touch hk.grounded t
  bare := bare_touch hinit hp hmade hk.bare t

variable (harray : r.isArray c = true)

include harray

namespace Search

theorem yields_method {s : Signature} (hs : s.name ∉ Registry.rootNames) :
    (method r c s).Yields (Introspector.Orderly r) none := by
  intro k hk
  exact ⟨hk.bare.findMethod hinit hp hmade hk.inOrder harray hs, hk.touch hinit hp hmade (.method c s)⟩

theorem yields_field (name : String) : (field r c name).Yields (Introspector.Orderly r) none := by
  intro k hk
  refine ⟨congrArg Except.ok (hk.grounded.findField_array hk.inOrder hmade harray name), ?_⟩
  exact hk.touch hinit hp hmade (.map c)

theorem yields_setter (property : String) (args : List Value) :
    (accessor r c "set" property args).Yields (Introspector.Orderly r) none := by
  unfold accessor
  split
  · exact yields_pure none
  · exact (yields_method hinit hp hmade harray (Registry.setter_not_mem_rootNames _)).bind
      (yields_method hinit hp hmade harray (Registry.setter_not_mem_rootNames _))

end Search

/-! ## Writers -/

/-- The way to write elements of the instances of a class, for a property that stands for an index. -/
def Writer.element? (c : ClassId) (key : Value) : Option Writer := key.toIndex?.map fun i => ⟨c, .list .array i⟩

namespace Writer

omit hinit hp hmade in
theorem yields_list (key v : Value) :
    (search r c key v .list).Yields (Introspector.Orderly r) (element? c key) := by
  unfold search element?
  simp only [searchRoute]
  cases key.toIndex? with
  | none => exact (Search.yields_pure _).map _
  | some i =>
    have helements :
        (Indexed.search r c (.ofArgs "set" [.int i, v])).Yields (Introspector.Orderly r) (some .array) := by
      unfold Indexed.search
      rw [if_pos harray]
      exact Search.yields_pure _
    exact (helements.map _).map _

/-- Beside the elements of an array there is no way to write to it. -/
theorem yields_other (key v : Value) {family : WriteFamily} (hfamily : family ≠ .list) :
    (search r c key v family).Yields (Introspector.Orderly r) none := by
  suffices hroute : (searchRoute r c key v family).Yields (Introspector.Orderly r) none from hroute.map _
  cases family with
  | list => exact absurd rfl hfamily
  | field =>
    simp only [searchRoute]
    split
    · exact Search.yields_pure none
    · exact (Search.yields_field hinit hp hmade harray _).map _
  | map =>
    simp only [searchRoute]
    rw [Registry.isAssignable_map_of_isArray hp hinit hmade harray]
    exact Search.yields_pure none
  | setter =>
    simp only [searchRoute]
    split
    · exact Search.yields_pure none
    · exact (Search.yields_setter hinit hp hmade harray _ _).map _
  | duck =>
    have hset : "set" ∉ Registry.rootNames := by decide +kernel
    have hput : "put" ∉ Registry.rootNames := by decide +kernel
    exact (Search.yields_method hinit hp hmade harray (s := .ofArgs "set" [key, v]) hset).bind
      ((Search.yields_method hinit hp hmade harray (s := .ofArgs "put" [key, v]) hput).map _)

end Writer

/-- **The writer that is found on an array class**, in any order of search: the elements, if the order looks at lists
and the property stands for an index. -/
theorem Resolver.yields_firstWriter (order : List Resolver) {target : Value} (hcls : target.cls = c)
    (hnull : target.isNull = false) (key v : Value) :
    (firstWriter order r target key v).Yields (Introspector.Orderly r)
      (if .list ∈ order then Writer.element? c key else none) := by
  unfold firstWriter
  rw [hnull, hcls]
  simp only [Bool.false_eq_true, if_false]
  apply Search.yields_firstAlive
  · intro b hb
    obtain ⟨i, -, rfl⟩ := Option.map_eq_some_iff.1 hb
    rfl
  · exact Writer.yields_list harray key v
  · intro x hx
    cases x with
    | list => exact absurd rfl hx
    | property | map | duck | field => exact Writer.yields_other hinit hp hmade harray key v nofun

/-- Both styles look at the elements of arrays. -/
theorem Strategy.list_mem_resolvers (σ : Strategy) (style : AccessStyle) : .list ∈ σ.resolvers r c style := by
  unfold resolvers
  rw [Registry.isAssignable_map_of_isArray hp hinit hmade harray]
  cases style <;> simp [AccessStyle.resolvers]

end Arrays

end MemberAccess
