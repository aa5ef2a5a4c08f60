import MemberAccess.Proofs.Binding.Origin
import MemberAccess.Proofs.Introspection.Recall

/-!
# Searches that find nothing

Whatever is looked for on a class that has been retired, nothing is found, in any memory that is in order: its
map is not used again, so neither a member nor an ambiguity that was remembered comes up.

* `Search.Barren`: a search that answers none and leaves the memory in order, with its rules.
* `Search.barren_method`, `Search.barren_field`: members of a retired class.
* `Resolver.barren_reader`, `Resolver.barren_writer`: what one resolver finds.
* `Discovery.barren_search`: whatever an engine is asked to find on the class.
-/

namespace MemberAccess

variable {α β : Type} {r : Registry} {c : ClassId}

/-- From memories in order, the search finds nothing and leads to memories in order. -/
def Search.Barren (s : Search (Option α)) : Prop :=
  ∀ k : Introspector, k.InOrder → (s k).1 = .ok none ∧ (s k).2.InOrder

namespace Search

theorem barren_none : Barren (pure none : Search (Option α)) := fun _ hk => ⟨rfl, hk⟩

theorem Barren.bind {s : Search (Option α)} {f : Option α → Search (Option β)} (h : s.Barren)
    (hf : (f none).Barren) : (s >>= f).Barren := by
  intro k hk
  obtain ⟨hnone, hk'⟩ := h k hk
  rw [bind_apply]
  rcases hs : s k with ⟨answer, k'⟩
  rw [hs] at hnone hk'
  cases hnone
  exact hf k' hk'

/-- Nothing, taken further without asking. -/
theorem Barren.map {s : Search (Option α)} {f : Option α → Option β} (h : s.Barren) (hf : f none = none) :
    Barren (do pure (f (← s))) :=
  h.bind (by rw [hf]; exact barren_none)

theorem barren_firstAlive {alive : β → Bool} {searches : List (Search (Option β))}
    (h : ∀ s ∈ searches, s.Barren) : (firstAlive alive searches).Barren := by
  induction searches with
  | nil => exact barren_none
  | cons s rest ih => exact (h s List.mem_cons_self).bind (ih fun s hs => h s (List.mem_cons_of_mem _ hs))

end Search

section Retired

variable (hc : r.isAlive c = false)

include hc

namespace Search

theorem barren_method (s : Signature) : (method r c s).Barren := by
  intro k hk
  refine ⟨?_, hk.findMethod r c s⟩
  change (k.findMethod r c s).1 = .ok none
  rw [Introspector.findMethod_answer, Introspector.mapOf_dead hk hc]
  rfl

theorem barren_field (name : String) : (field r c name).Barren := by
  intro k hk
  refine ⟨?_, hk.mapOf r c⟩
  change Except.ok ((k.mapOf r c).1.bind (·.field? name)) = .ok none
  rw [Introspector.mapOf_dead hk hc]
  rfl

theorem barren_accessor (lead property : String) (args : List Value) :
    (accessor r c lead property args).Barren := by
  unfold accessor
  split
  · exact barren_none
  · exact (barren_method hc _).bind (barren_method hc _)

end Search

theorem Indexed.barren_search (harray : r.isArray c = false) (s : Signature) : (Indexed.search r c s).Barren := by
  unfold Indexed.search
  rw [harray]
  simp only [Bool.false_eq_true, if_false]
  split
  · exact (Search.barren_method hc s).map rfl
  · exact Search.barren_none

/-! ## Readers and writers -/

theorem Reader.barren_searchAccessor (lead : String) (key : Value) (route : Method → String → ReadRoute) :
    (searchAccessor r c lead key route).Barren := by
  unfold searchAccessor
  split
  · exact Search.barren_none
  · exact (Search.barren_accessor hc lead _ []).map rfl

theorem Reader.barren_search (harray : r.isArray c = false) (key : Value) (family : ReadFamily) :
    (search r c key family).Barren := by
  suffices (searchRoute r c key family).Barren from this.map rfl
  cases family with
  | field =>
    simp only [searchRoute]
    split
    · exact Search.barren_none
    · exact (Search.barren_field hc _).map rfl
  | map =>
    simp only [searchRoute]
    split
    · exact (Search.barren_method hc _).map rfl
    · exact Search.barren_none
  | list =>
    simp only [searchRoute]
    split
    · exact Search.barren_none
    · exact (Indexed.barren_search hc harray _).map rfl
  | getter => exact Reader.barren_searchAccessor hc "get" key .getter
  | flag => exact (Reader.barren_searchAccessor hc "is" key .flag).map rfl
  | duck =>
    apply (Search.barren_method hc _).bind
    simp only
    split
    · exact Search.barren_none
    · exact (Search.barren_method hc _).map rfl

theorem Writer.barren_search (harray : r.isArray c = false) (key v : Value) (family : WriteFamily) :
    (search r c key v family).Barren := by
  suffices (searchRoute r c key v family).Barren from this.map rfl
  cases family with
  | field =>
    simp only [searchRoute]
    split
    · exact Search.barren_none
    · exact (Search.barren_field hc _).map rfl
  | map =>
    simp only [searchRoute]
    split
    · exact (Search.barren_method hc _).map rfl
    · exact Search.barren_none
  | list =>
    simp only [searchRoute]
    split
    · exact Search.barren_none
    · exact (Indexed.barren_search hc harray _).map rfl
  | setter =>
    simp only [searchRoute]
    split
    · exact Search.barren_none
    · exact (Search.barren_accessor hc "set" _ [v]).map rfl
  | duck => exact (Search.barren_method hc _).bind ((Search.barren_method hc _).map rfl)

namespace Resolver

theorem barren_reader (harray : r.isArray c = false) (key : Value) (resolver : Resolver) :
    (reader r c key resolver).Barren := by
  cases resolver with
  | property => exact (Reader.barren_search hc harray key .getter).bind (Reader.barren_search hc harray key .flag)
  | map | list | duck | field => exact Reader.barren_search hc harray key _

theorem barren_writer (harray : r.isArray c = false) (key v : Value) (resolver : Resolver) :
    (writer r c key v resolver).Barren := by
  cases resolver <;> exact Writer.barren_search hc harray key v _

end Resolver

end Retired

/-! ## What engines find -/

/-- Something is looked for on a class: read, written or called on one of its instances, or called on the class. -/
inductive Discovery.On (c : ClassId) : Discovery → Prop
  | read {order target key} (h : target.cls = c) : On c (.read order target key)
  | write {order target key v} (h : target.cls = c) : On c (.write order target key v)
  | call {target name args} (h : target.cls = c) : On c (.call target name args)
  | callOn {name args} : On c (.callOn c name args)

/-- **Nothing is found on a retired class.** -/
theorem Discovery.barren_search (hc : r.isAlive c = false) (harray : r.isArray c = false) (e : Engine)
    {d : Discovery} (hd : d.On c) : (d.search e r).Barren := by
  have hcall (name : String) (args : List Value) : (Engine.findCallerOn r c name args).Barren :=
    Search.Barren.map ((Search.barren_method hc _).map rfl) rfl
  cases hd with
  | @read order target key h =>
    refine Search.Barren.map ?_ rfl
    unfold Resolver.firstReader
    split
    · exact Search.barren_none
    · apply Search.barren_firstAlive
      intro s hs
      obtain ⟨resolver, -, rfl⟩ := List.mem_map.1 hs
      exact h ▸ Resolver.barren_reader (h ▸ hc) (h ▸ harray) key resolver
  | @write order target key v h =>
    refine Search.Barren.map ?_ rfl
    unfold Resolver.firstWriter
    split
    · exact Search.barren_none
    · apply Search.barren_firstAlive
      intro s hs
      obtain ⟨resolver, -, rfl⟩ := List.mem_map.1 hs
      exact h ▸ Resolver.barren_writer (h ▸ hc) (h ▸ harray) key v resolver
  | @call target name args h =>
    subst h
    refine Search.Barren.map ?_ rfl
    unfold Engine.findCaller
    split
    · exact Search.barren_none
    · exact hcall name args
  | @callOn name args => exact (hcall name args).map rfl

end MemberAccess
