import MemberAccess.Proofs.Binding.Origin
import MemberAccess.Proofs.Introspection.Agreement

/-!
# Searches as questions to one memory

A search asks one query after the other, each in the memory that the one before it left behind. As queries leave
alone what a memory says, its answer is what comes of asking all of them of the memory that it started with.

* `Search.Fixed`: a search whose answer depends on what a memory says, with its rules.
* `Fixed.bind_answer`: the answer of a search and its continuation, both in one memory.
* `Resolver.fixed_reader`: the searches for readers.
* `Search.Passes`, `firstAlive_cons_iff`: which of several searches decides.
-/

namespace MemberAccess

variable {α β : Type} {r : Registry} {c : ClassId} {k k' : Introspector}

namespace Search

/-- A search that leaves alone what a memory says, and answers the same in memories that say the same. -/
structure Fixed (r : Registry) (S : Search α) : Prop where
  keeps : ∀ {k}, k.InOrder → (S k).2.InOrder ∧ k.Agrees r (S k).2
  same : ∀ {k k'}, k.InOrder → k'.InOrder → k.Agrees r k' → (S k').1 = (S k).1

variable {S : Search α} {f : α → Search β}

theorem fixed_pure (a : α) : Fixed r (pure a : Search α) where
  keeps hk := ⟨hk, .refl r _⟩
  same _ _ _ := rfl

/-- **The answer of a search and its continuation** is that of both in the memory that the first one started with. -/
theorem Fixed.bind_answer (hS : Fixed r S) (hf : ∀ a, Fixed r (f a)) (hk : k.InOrder) :
    ((S >>= f) k).1 = (S k).1.bind fun a => (f a k).1 := by
  obtain ⟨hk', hagrees⟩ := hS.keeps hk
  rw [bind_apply]
  rcases hs : S k with ⟨e | a, k'⟩ <;> rw [hs] at hk' hagrees
  · rfl
  · exact (hf a).same hk hk' hagrees

theorem Fixed.bind (hS : Fixed r S) (hf : ∀ a, Fixed r (f a)) : Fixed r (S >>= f) where
  keeps {k} hk := by
    obtain ⟨hk', hagrees⟩ := hS.keeps hk
    rw [bind_apply]
    rcases hs : S k with ⟨e | a, k'⟩ <;> rw [hs] at hk' hagrees
    · exact ⟨hk', hagrees⟩
    · obtain ⟨hk'', hagrees'⟩ := (hf a).keeps hk'
      exact ⟨hk'', hagrees.trans hagrees'⟩
  same {k k'} hk hk' hagrees := by
    rw [hS.bind_answer hf hk, hS.bind_answer hf hk', hS.same hk hk' hagrees]
    cases (S k).1 with
    | error e => rfl
    | ok a => exact (hf a).same hk hk' hagrees

/-- An answer, taken further without asking. -/
theorem Fixed.map {f : α → β} (hS : Fixed r S) : Fixed r (do pure (f (← S))) := hS.bind fun a => fixed_pure (f a)

theorem fixed_ite {T : Search α} (b : Bool) (hS : Fixed r S) (hT : Fixed r T) : Fixed r (if b then S else T) := by
  cases b with
  | true => exact hS
  | false => exact hT

theorem fixed_method (c : ClassId) (s : Signature) : Fixed r (method r c s) where
  keeps hk := ⟨hk.findMethod r c s, Introspector.agrees_ask hk r (.method c s)⟩
  same _ _ hagrees := hagrees.findMethod c s

theorem fixed_field (c : ClassId) (name : String) : Fixed r (field r c name) where
  keeps hk := ⟨hk.mapOf r c, Introspector.agrees_ask hk r (.field c name)⟩
  same _ _ hagrees := congrArg Except.ok (hagrees.findField c name)

theorem fixed_accessor (c : ClassId) (lead property : String) (args : List Value) :
    Fixed r (accessor r c lead property args) := by
  unfold accessor
  split
  · exact fixed_pure none
  · apply (fixed_method c _).bind
    intro found
    cases found with
    | some m => exact fixed_pure (some m)
    | none => exact fixed_method c _

/-! ## Which search decides -/

/-- In a memory a search finds nothing that is alive, and no tie stops it. -/
def Passes (alive : β → Bool) (S : Search (Option β)) (k : Introspector) : Prop :=
  ∃ found, (S k).1 = .ok found ∧ ∀ b ∈ found, alive b = false

theorem fixed_firstAlive {alive : β → Bool} {searches : List (Search (Option β))}
    (h : ∀ S ∈ searches, Fixed r S) : Fixed r (firstAlive alive searches) := by
  induction searches with
  | nil => exact fixed_pure none
  | cons S rest ih =>
    refine (h S List.mem_cons_self).bind fun found => ?_
    split
    · exact fixed_pure _
    · exact ih fun T hT => h T (List.mem_cons_of_mem _ hT)

/-- **Of several searches, the first one decides**, unless it passes. -/
theorem firstAlive_cons_iff {alive : β → Bool} {S : Search (Option β)} {rest : List (Search (Option β))} {b : β}
    (hS : Fixed r S) (hrest : ∀ T ∈ rest, Fixed r T) (hk : k.InOrder) :
    (firstAlive alive (S :: rest) k).1 = .ok (some b) ↔
      ((S k).1 = .ok (some b) ∧ alive b = true) ∨ (Passes alive S k ∧ (firstAlive alive rest k).1 = .ok (some b)) := by
  have hdecides : (firstAlive alive (S :: rest) k).1 = (S k).1.bind fun found =>
      (found.filter alive).elim (firstAlive alive rest k).1 (.ok ∘ some) := by
    refine (hS.bind_answer (fun found => ?_) hk).trans ?_
    · split
      · exact fixed_pure _
      · exact fixed_firstAlive hrest
    · congr 1
      funext found
      cases found.filter alive <;> rfl
  rw [hdecides]
  cases hanswer : (S k).1 with
  | error e =>
    constructor
    · intro h
      cases h
    · rintro (⟨h, -⟩ | ⟨⟨found, hfound, -⟩, -⟩)
      · cases h
      · rw [hanswer] at hfound
        cases hfound
  | ok found =>
    simp only [Except.bind]
    cases hfilter : found.filter alive with
    | some b' =>
      obtain ⟨rfl, halive⟩ := Option.filter_eq_some_iff.1 hfilter
      constructor
      · intro h
        cases h
        exact .inl ⟨rfl, halive⟩
      · rintro (⟨h, -⟩ | ⟨⟨found, hfound, hdead⟩, -⟩)
        · exact h
        · rw [hanswer] at hfound
          cases hfound
          rw [hdead b' rfl] at halive
          cases halive
    | none =>
      have hdead : ∀ b ∈ found, alive b = false := by
        intro b hb
        rw [Option.mem_def.1 hb] at hfilter
        simpa [Option.filter] using hfilter
      constructor
      · exact fun h => .inr ⟨⟨found, hanswer, hdead⟩, h⟩
      · rintro (⟨h, halive⟩ | ⟨-, h⟩)
        · cases h
          rw [hdead b rfl] at halive
          cases halive
        · exact h

end Search

/-! ## Searches for readers -/

theorem Indexed.fixed_search (c : ClassId) (s : Signature) : Search.Fixed r (search r c s) :=
  Search.fixed_ite _ (Search.fixed_pure _) (Search.fixed_ite _ (Search.fixed_method c s).map (Search.fixed_pure _))

namespace Reader

theorem fixed_searchAccessor (c : ClassId) (lead : String) (key : Value) (f : Method → String → ReadRoute) :
    Search.Fixed r (searchAccessor r c lead key f) := by
  unfold searchAccessor
  split
  · exact Search.fixed_pure none
  · exact (Search.fixed_accessor c lead _ []).map

theorem fixed_searchDuck (c : ClassId) (key : Value) : Search.Fixed r (searchDuck r c key) := by
  unfold searchDuck
  apply (Search.fixed_method c _).bind
  intro found
  cases found with
  | some m => exact Search.fixed_pure _
  | none =>
    simp only
    split
    · exact Search.fixed_pure none
    · exact (Search.fixed_method c _).map

theorem fixed_search (c : ClassId) (key : Value) (family : ReadFamily) : Search.Fixed r (search r c key family) := by
  suffices hroute : Search.Fixed r (searchRoute r c key family) from hroute.map
  cases family with
  | field =>
    simp only [searchRoute]
    split
    · exact Search.fixed_pure none
    · exact (Search.fixed_field c _).map
  | map => exact Search.fixed_ite _ (Search.fixed_method c _).map (Search.fixed_pure none)
  | list =>
    simp only [searchRoute]
    split
    · exact Search.fixed_pure none
    · exact (Indexed.fixed_search c _).map
  | getter => exact fixed_searchAccessor c "get" key .getter
  | flag => exact (fixed_searchAccessor c "is" key .flag).map
  | duck => exact fixed_searchDuck c key

end Reader

/-- **The searches for readers** are questions to one memory. -/
theorem Resolver.fixed_reader (c : ClassId) (key : Value) (resolver : Resolver) :
    Search.Fixed r (reader r c key resolver) := by
  cases resolver with
  | property =>
    apply (Reader.fixed_search c key .getter).bind
    intro found
    cases found with
    | some b => exact Search.fixed_pure _
    | none => exact Reader.fixed_search c key .flag
  | map | list | duck | field => exact Reader.fixed_search c key _

end MemberAccess
