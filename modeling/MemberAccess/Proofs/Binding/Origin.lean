import MemberAccess.Proofs.Binding.Member
import MemberAccess.Proofs.Heap

/-!
# Where bindings come from

A search only asks queries. So a property of memories that queries keep is kept by every search, and
whatever a search finds was the answer to a query in a memory with that property.

* `Search.Ensures`: what a search does to memories with a property, and what it finds.
* `Answered`, `Gives`: a member of a class that a query answered, and a method that was answered for a signature.
* `ReadRoute.Found`, `WriteRoute.Found`: what each family looks for, and what it makes of the answer.
* `Resolver.found_firstReader`, `Resolver.found_firstWriter`: whatever is found came about like that.
* `Caller.Found`, `Creator.Found`: the same for overloads and constructors.
* `Discovery.ensures_search`: the same for whatever an engine can be asked to find.
-/

namespace MemberAccess

variable {α β : Type} {I : Introspector → Prop} {r : Registry} {c : ClassId}

/-- A search, and what is made of its answer without asking. -/
theorem Search.map_apply (s : Search α) (f : α → β) (k : Introspector) :
    (do pure (f (← s)) : Search β) k = ((s k).1.map f, (s k).2) := by
  rw [bind_apply]
  rcases s k with ⟨_ | _, _⟩ <;> rfl

/-- What is found and then taken further was found. -/
theorem Search.found_of_map {s : Search (Option α)} {f : α → β} {k : Introspector} {b : β}
    (h : ((do pure ((← s).map f) : Search (Option β)) k).1 = .ok (some b)) :
    ∃ a, (s k).1 = .ok (some a) ∧ f a = b := by
  rw [map_apply s (·.map f)] at h
  rcases hs : s k with ⟨_ | found, k'⟩ <;> rw [hs] at h
  · cases h
  · obtain ⟨a, rfl, ha⟩ := Option.map_eq_some_iff.1 (Except.ok.inj h)
    exact ⟨a, rfl, ha⟩

/-- Queries keep the property. -/
def Introspector.KeptByQueries (r : Registry) (I : Introspector → Prop) : Prop :=
  ∀ k q, I k → I (k.ask r q).2

theorem Introspector.keptByQueries_of_touch (h : ∀ {k} t, I k → I (k.touch r t)) : KeptByQueries r I := by
  intro k q hk
  rw [k.ask_touch]
  exact h q.touch hk

theorem Introspector.keptByQueries_true (r : Registry) : KeptByQueries r fun _ => True := fun _ _ _ => trivial

/-- The memory after a list of queries. -/
def Introspector.asked (k : Introspector) (r : Registry) (qs : List Query) : Introspector :=
  qs.foldl (fun k q => (k.ask r q).2) k

theorem Introspector.asked_cons (k : Introspector) (r : Registry) (q : Query) (qs : List Query) :
    k.asked r (q :: qs) = (k.touch r q.touch).asked r qs := by
  unfold asked
  rw [List.foldl_cons, ask_touch]

theorem Introspector.keptByQueries_asked (k : Introspector) (r : Registry) :
    KeptByQueries r fun k' => ∃ qs, k' = k.asked r qs := by
  rintro k' q ⟨qs, rfl⟩
  refine ⟨qs ++ [q], ?_⟩
  unfold asked
  rw [List.foldl_append]
  rfl

/-- An ambiguous call that a memory with the property answered. -/
inductive Tied (I : Introspector → Prop) (r : Registry) (e : AmbiguousCall) : Prop
  | method {k c s} (hk : I k) (h : (k.findMethod r c s).1 = .error e)
  | constructor {k name args} (hk : I k) (h : (k.findConstructor r name args).1 = .error e)

/-- From memories with a property a search leads to memories with the property. What it answers
satisfies `p`, and when it fails, a query was ambiguous. -/
def Search.Ensures (I : Introspector → Prop) (r : Registry) (s : Search α) (p : α → Prop) : Prop :=
  ∀ k, I k → I (s k).2 ∧ (∀ a, (s k).1 = .ok a → p a) ∧ ∀ e, (s k).1 = .error e → Tied I r e

namespace Search

theorem ensures_pure {a : α} {p : α → Prop} (h : p a) : Ensures I r (pure a : Search α) p := by
  intro k hk
  refine ⟨hk, ?_, fun e he => (by cases he)⟩
  intro b hb
  cases hb
  exact h

theorem Ensures.bind {s : Search α} {f : α → Search β} {p : α → Prop} {q : β → Prop}
    (h : s.Ensures I r p) (hf : ∀ a, p a → (f a).Ensures I r q) : (s >>= f).Ensures I r q := by
  intro k hk
  obtain ⟨hk', hp, htied⟩ := h k hk
  rw [bind_apply]
  rcases hs : s k with ⟨e | a, k'⟩ <;> rw [hs] at hk' hp htied
  · exact ⟨hk', fun a ha => (by cases ha), fun e he => htied e (by cases he; rfl)⟩
  · exact hf a (hp a rfl) k' hk'

theorem Ensures.imp {s : Search α} {p q : α → Prop} (h : s.Ensures I r p) (hpq : ∀ a, p a → q a) :
    s.Ensures I r q := by
  intro k hk
  obtain ⟨hk', hp, htied⟩ := h k hk
  exact ⟨hk', fun a ha => hpq a (hp a ha), htied⟩

/-- An answer, taken further without asking. -/
theorem Ensures.map {s : Search α} {f : α → β} {p : α → Prop} {q : β → Prop} (h : s.Ensures I r p)
    (hf : ∀ a, p a → q (f a)) : Ensures I r (do pure (f (← s))) q :=
  h.bind fun a ha => ensures_pure (hf a ha)

end Search

/-- A method or field of a class that a query answered in a memory with the property. -/
inductive Answered (I : Introspector → Prop) (r : Registry) (c : ClassId) : Member → Prop
  | method {k s m} (hk : I k) (h : (k.findMethod r c s).1 = .ok (some m)) : Answered I r c (.method m)
  | field {k name f} (hk : I k) (h : (k.findField r c name).1 = some f) : Answered I r c (.field f)

/-- A way into the instances of a class: an answered member of it, or the elements of an array. -/
def LeadsInto (I : Introspector → Prop) (r : Registry) (c : ClassId) : Option Member → Prop
  | some m => Answered I r c m
  | none => r.isArray c = true

/-- A memory with the property answered a method of a class for a signature. -/
def Gives (I : Introspector → Prop) (r : Registry) (c : ClassId) (s : Signature) (m : Method) : Prop :=
  ∃ k, I k ∧ (k.findMethod r c s).1 = .ok (some m)

/-- A memory with the property answered a field of a class for a name. -/
def GivesField (I : Introspector → Prop) (r : Registry) (c : ClassId) (name : String) (f : Field) : Prop :=
  ∃ k, I k ∧ (k.findField r c name).1 = some f

theorem Gives.answered {s : Signature} {m : Method} (h : Gives I r c s m) : Answered I r c (.method m) := by
  obtain ⟨k, hk, hm⟩ := h
  exact .method hk hm

theorem GivesField.answered {name : String} {f : Field} (h : GivesField I r c name f) : Answered I r c (.field f) := by
  obtain ⟨k, hk, hf⟩ := h
  exact .field hk hf

/-- A field is found by its name. -/
theorem GivesField.name {name : String} {f : Field} (h : GivesField I r c name f) : f.name = name := by
  obtain ⟨k, -, hf⟩ := h
  obtain ⟨m, -, hf⟩ := Option.bind_eq_some_iff.1 hf
  simpa using List.find?_some hf

namespace Search

theorem ensures_method (hI : Introspector.KeptByQueries r I) (s : Signature) :
    (method r c s).Ensures I r (fun found => ∀ m ∈ found, Gives I r c s m) := by
  intro k hk
  refine ⟨hI k (.method c s) hk, ?_, fun e he => .method hk he⟩
  intro found hfound m hm
  rw [Option.mem_def.1 hm] at hfound
  exact ⟨k, hk, hfound⟩

theorem ensures_field (hI : Introspector.KeptByQueries r I) (name : String) :
    (field r c name).Ensures I r (fun found => ∀ f ∈ found, GivesField I r c name f) := by
  intro k hk
  refine ⟨hI k (.field c name) hk, ?_, fun e he => (by cases he)⟩
  intro found hfound f hf
  cases hfound
  exact ⟨k, hk, hf⟩

theorem ensures_constructor (hI : Introspector.KeptByQueries r I) (name : String) (args : List Value) :
    (constructor r name args).Ensures I r
      (fun found => ∀ x ∈ found, ∃ k, I k ∧ (k.findConstructor r name args).1 = .ok (some x)) := by
  intro k hk
  refine ⟨hI k (.constructor name args) hk, ?_, fun e he => .constructor hk he⟩
  intro found hfound x hx
  rw [Option.mem_def.1 hx] at hfound
  exact ⟨k, hk, hfound⟩

/-- A method that is named after a property, in upper or in lower case. -/
theorem ensures_accessor (hI : Introspector.KeptByQueries r I) (lead property : String) (args : List Value) :
    (accessor r c lead property args).Ensures I r
      (fun found => ∀ m ∈ found, ∃ name, Gives I r c (.ofArgs name args) m) := by
  unfold accessor
  split
  · exact ensures_pure (fun m hm => by cases hm)
  · apply (ensures_method hI _).bind
    intro found hfound
    cases found with
    | some m => exact ensures_pure fun m' hm => ⟨_, hfound m' hm⟩
    | none => exact (ensures_method hI _).imp fun _ h m hm => ⟨_, h m hm⟩

end Search

/-- How an indexed access is found: on an array class, or through a method for a signature. -/
inductive Indexed.Found (I : Introspector → Prop) (r : Registry) (c : ClassId) (s : Signature) : Indexed → Prop
  | array (h : r.isArray c = true) : Found I r c s .array
  | list {m} (h : Gives I r c s m) : Found I r c s (.list m)

theorem Indexed.Found.leadsInto {s : Signature} {source : Indexed} (h : source.Found I r c s) :
    LeadsInto I r c source.member? := by
  cases h with
  | array h => exact h
  | list h => exact h.answered

theorem Indexed.ensures_search (hI : Introspector.KeptByQueries r I) (s : Signature) :
    (Indexed.search r c s).Ensures I r (fun found => ∀ source ∈ found, source.Found I r c s) := by
  unfold Indexed.search
  split
  · rename_i harray
    apply Search.ensures_pure
    intro source hsource
    cases hsource
    exact .array harray
  · split
    · exact (Search.ensures_method hI s).map fun _ h => Option.forall_mem_map.2 fun m hm => .list (h m hm)
    · exact Search.ensures_pure (fun source h => by cases h)

/-! ## Readers -/

/-- **How each family finds a reader**: what it looks for, and what it makes of the answer. -/
inductive ReadRoute.Found (I : Introspector → Prop) (r : Registry) (c : ClassId) (key : Value) : ReadRoute → Prop
  | field {name f} (hname : key.propertyName? = some name) (h : GivesField I r c name f) : Found I r c key (.field f)
  | map {m} (h : Gives I r c (.ofArgs "get" [key]) m) : Found I r c key (.map m key)
  | list {source index} (hindex : key.toIndex? = some index) (h : source.Found I r c (.ofTypes "get" [.int])) :
      Found I r c key (.list source index)
  | getter {m property name} (hname : key.propertyName? = some property) (h : Gives I r c (.ofArgs name []) m) :
      Found I r c key (.getter m property)
  | flag {m property name} (hname : key.propertyName? = some property) (h : Gives I r c (.ofArgs name []) m) :
      Found I r c key (.flag m property)
  | duck {m argument} (h : Gives I r c (.ofArgs "get" [argument]) m) : Found I r c key (.duck m key argument)

theorem ReadRoute.Found.leadsInto {key : Value} {route : ReadRoute} (h : route.Found I r c key) :
    LeadsInto I r c route.member? := by
  cases h with
  | field _ h | map h | getter _ h | flag _ h | duck h => exact h.answered
  | list _ h => exact h.leadsInto

namespace Reader

theorem found_searchAccessor (hI : Introspector.KeptByQueries r I) (lead : String) (key : Value)
    {f : Method → String → ReadRoute} {p : ReadRoute → Prop}
    (hf : ∀ m property name, key.propertyName? = some property → Gives I r c (.ofArgs name []) m → p (f m property)) :
    (searchAccessor r c lead key f).Ensures I r (fun found => ∀ route ∈ found, p route) := by
  unfold searchAccessor
  split
  · exact Search.ensures_pure (fun route h => by cases h)
  · rename_i property hname
    apply (Search.ensures_accessor hI lead property []).map
    intro found hfound
    refine Option.forall_mem_map.2 fun m hm => ?_
    obtain ⟨name, hgives⟩ := hfound m hm
    exact hf m property name hname hgives

/-- **What a family finds** is of the family. -/
theorem found_searchRoute (hI : Introspector.KeptByQueries r I) (key : Value) (family : ReadFamily) :
    (searchRoute r c key family).Ensures I r
      (fun found => ∀ route ∈ found, route.family = family ∧ route.Found I r c key) := by
  cases family with
  | field =>
    simp only [searchRoute]
    split
    · exact Search.ensures_pure (fun route h => by cases h)
    · rename_i name hname
      exact (Search.ensures_field hI name).map fun _ h =>
        Option.forall_mem_map.2 fun f hf => ⟨rfl, .field hname (h f hf)⟩
  | map =>
    simp only [searchRoute]
    split
    · exact (Search.ensures_method hI _).map fun _ h => Option.forall_mem_map.2 fun m hm => ⟨rfl, .map (h m hm)⟩
    · exact Search.ensures_pure (fun route h => by cases h)
  | list =>
    simp only [searchRoute]
    split
    · exact Search.ensures_pure (fun route h => by cases h)
    · rename_i index hindex
      exact (Indexed.ensures_search hI _).map fun _ h =>
        Option.forall_mem_map.2 fun source hsource => ⟨rfl, .list hindex (h source hsource)⟩
  | getter => exact found_searchAccessor hI "get" key fun m property name hname h => ⟨rfl, .getter hname h⟩
  | flag =>
    have haccessor : (searchAccessor r c "is" key .flag).Ensures I r
        (fun found => ∀ route ∈ found, route.family = .flag ∧ route.Found I r c key) :=
      found_searchAccessor hI "is" key fun m property name hname h => ⟨rfl, .flag hname h⟩
    -- a method that answers no boolean is left out afterwards
    exact haccessor.map fun _ h route hroute => h route (Option.eq_some_of_filter_eq_some hroute)
  | duck =>
    simp only [searchRoute, searchDuck]
    apply (Search.ensures_method hI _).bind
    intro found hfound
    cases found with
    | some m => exact Search.ensures_pure fun route h => by cases h; exact ⟨rfl, .duck (hfound m rfl)⟩
    | none =>
      simp only
      split
      · exact Search.ensures_pure (fun route h => by cases h)
      · exact (Search.ensures_method hI _).map fun _ h => Option.forall_mem_map.2 fun m hm => ⟨rfl, .duck (h m hm)⟩

/-- **A reader that is found** serves the class it was looked for on. -/
theorem found_search (hI : Introspector.KeptByQueries r I) (key : Value) (family : ReadFamily) :
    (search r c key family).Ensures I r
      (fun found => ∀ b ∈ found, b.family = family ∧ b.cls = c ∧ b.route.Found I r c key) :=
  (found_searchRoute hI key family).map fun _ h =>
    Option.forall_mem_map.2 fun route hroute => ⟨(h route hroute).1, rfl, (h route hroute).2⟩

end Reader

/-! ## Writers -/

/-- **How each family finds a writer**: what it looks for, and what it makes of the answer. -/
inductive WriteRoute.Found (I : Introspector → Prop) (r : Registry) (c : ClassId) (key v : Value) : WriteRoute → Prop
  | field {name f} (hname : key.propertyName? = some name) (h : GivesField I r c name f) (hfinal : f.isFinal = false)
      (hfits : (conversionCost r f.type v.type).isSome = true) : Found I r c key v (.field f)
  | map {m} (h : Gives I r c (.ofArgs "put" [key, v]) m) : Found I r c key v (.map m key)
  | list {source index} (hindex : key.toIndex? = some index) (h : source.Found I r c (.ofArgs "set" [.int index, v])) :
      Found I r c key v (.list source index)
  | setter {m property name} (hname : key.propertyName? = some property) (h : Gives I r c (.ofArgs name [v]) m) :
      Found I r c key v (.setter m property v.type)
  | duck {m name} (h : Gives I r c (.ofArgs name [key, v]) m) : Found I r c key v (.duck m key v.type)

theorem WriteRoute.Found.leadsInto {key v : Value} {route : WriteRoute} (h : route.Found I r c key v) :
    LeadsInto I r c route.member? := by
  cases h with
  | field _ h | map h | setter _ h | duck h => exact h.answered
  | list _ h => exact h.leadsInto

namespace Writer

theorem found_searchRoute (hI : Introspector.KeptByQueries r I) (key v : Value) (family : WriteFamily) :
    (searchRoute r c key v family).Ensures I r (fun found => ∀ route ∈ found, route.Found I r c key v) := by
  cases family with
  | field =>
    simp only [searchRoute]
    split
    · exact Search.ensures_pure (fun route h => by cases h)
    · rename_i name hname
      apply (Search.ensures_field hI name).map
      intro found hfound
      refine Option.forall_mem_map.2 fun f hf => ?_
      obtain ⟨hf, hkept⟩ := Option.filter_eq_some_iff.1 hf
      simp only [Bool.and_eq_true, Bool.not_eq_true'] at hkept
      exact .field hname (hfound f hf) hkept.1 hkept.2
  | map =>
    simp only [searchRoute]
    split
    · exact (Search.ensures_method hI _).map fun _ h => Option.forall_mem_map.2 fun m hm => .map (h m hm)
    · exact Search.ensures_pure (fun route h => by cases h)
  | list =>
    simp only [searchRoute]
    split
    · exact Search.ensures_pure (fun route h => by cases h)
    · rename_i index hindex
      exact (Indexed.ensures_search hI _).map fun _ h =>
        Option.forall_mem_map.2 fun source hsource => .list hindex (h source hsource)
  | setter =>
    simp only [searchRoute]
    split
    · exact Search.ensures_pure (fun route h => by cases h)
    · rename_i property hname
      apply (Search.ensures_accessor hI "set" property [v]).map
      intro found hfound
      refine Option.forall_mem_map.2 fun m hm => ?_
      obtain ⟨name, hgives⟩ := hfound m hm
      exact .setter hname hgives
  | duck =>
    simp only [searchRoute, searchDuck]
    apply (Search.ensures_method hI _).bind
    intro found hfound
    cases found with
    | some m => exact Search.ensures_pure fun route h => by cases h; exact .duck (hfound m rfl)
    | none => exact (Search.ensures_method hI _).map fun _ h => Option.forall_mem_map.2 fun m hm => .duck (h m hm)

/-- **A writer that is found** serves the class it was looked for on. -/
theorem found_search (hI : Introspector.KeptByQueries r I) (key v : Value) (family : WriteFamily) :
    (search r c key v family).Ensures I r (fun found => ∀ b ∈ found, b.cls = c ∧ b.route.Found I r c key v) :=
  (found_searchRoute hI key v family).map fun _ h =>
    Option.forall_mem_map.2 fun route hroute => ⟨rfl, h route hroute⟩

end Writer

/-! ## What engines find -/

theorem Search.ensures_firstAlive {alive : β → Bool} {p : β → Prop} (searches : List (Search (Option β)))
    (h : ∀ s ∈ searches, s.Ensures I r (fun found => ∀ b ∈ found, p b)) :
    (firstAlive alive searches).Ensures I r (fun found => ∀ b ∈ found, p b ∧ alive b = true) := by
  induction searches with
  | nil => exact ensures_pure (fun b hb => by cases hb)
  | cons s rest ih =>
    unfold firstAlive
    apply (h s List.mem_cons_self).bind
    intro found hfound
    split
    · -- a binding of this search that is alive ends the whole search
      rename_i b hb
      apply ensures_pure
      intro b' hb'
      cases hb'
      obtain ⟨hmem, halive⟩ := Option.filter_eq_some_iff.1 hb
      exact ⟨hfound b hmem, halive⟩
    · exact ih fun s hs => h s (List.mem_cons_of_mem _ hs)

namespace Resolver

theorem found_reader (hI : Introspector.KeptByQueries r I) (key : Value) (resolver : Resolver) :
    (reader r c key resolver).Ensures I r (fun found => ∀ b ∈ found, b.cls = c ∧ b.route.Found I r c key) := by
  have hsearch : ∀ family, (Reader.search r c key family).Ensures I r
      (fun found => ∀ b ∈ found, b.cls = c ∧ b.route.Found I r c key) :=
    fun family => (Reader.found_search hI key family).imp fun _ h b hb => (h b hb).2
  cases resolver with
  | property =>
    apply (hsearch .getter).bind
    intro found hfound
    cases found with
    | some b => exact Search.ensures_pure hfound
    | none => exact hsearch .flag
  | map | list | duck | field => exact hsearch _

theorem found_writer (hI : Introspector.KeptByQueries r I) (key v : Value) (resolver : Resolver) :
    (writer r c key v resolver).Ensures I r (fun found => ∀ b ∈ found, b.cls = c ∧ b.route.Found I r c key v) := by
  cases resolver <;> exact Writer.found_search hI key v _

/-- **The reader that is found in some order** is found by one of the families, and alive. -/
theorem found_firstReader (hI : Introspector.KeptByQueries r I) (order : List Resolver) (target key : Value) :
    (firstReader order r target key).Ensures I r (fun found => ∀ b ∈ found,
      (b.cls = target.cls ∧ b.route.Found I r target.cls key) ∧ b.isAlive r = true) := by
  unfold firstReader
  split
  · exact Search.ensures_pure (fun b hb => by cases hb)
  · apply Search.ensures_firstAlive
    intro s hs
    obtain ⟨resolver, -, rfl⟩ := List.mem_map.1 hs
    exact found_reader hI key resolver

/-- **The writer that is found in some order** is found by one of the families, and alive. -/
theorem found_firstWriter (hI : Introspector.KeptByQueries r I) (order : List Resolver) (target key v : Value) :
    (firstWriter order r target key v).Ensures I r (fun found => ∀ b ∈ found,
      (b.cls = target.cls ∧ b.route.Found I r target.cls key v) ∧ b.isAlive r = true) := by
  unfold firstWriter
  split
  · exact Search.ensures_pure (fun b hb => by cases hb)
  · apply Search.ensures_firstAlive
    intro s hs
    obtain ⟨resolver, -, rfl⟩ := List.mem_map.1 hs
    exact found_writer hI key v resolver

end Resolver

/-- How an overload is found: a query answered it for the signature of the call. -/
structure Caller.Found (I : Introspector → Prop) (r : Registry) (c : ClassId) (name : String) (args : List Value)
    (b : Caller) : Prop where
  cls : b.cls = c
  signature : b.signature = .ofArgs name args
  gives : Gives I r c (.ofArgs name args) b.method

/-- How a constructor is found: it was answered for the name and the arguments. -/
structure Creator.Found (I : Introspector → Prop) (r : Registry) (name : String) (args : List Value) (b : Creator) :
    Prop where
  signature : b.signature = .ofArgs name args
  answer : ∃ k, I k ∧ (k.findConstructor r name args).1 = .ok (some b.constructor)

namespace Engine

/-- **The overload that is found on a class** is one of its methods and alive. -/
theorem found_findCallerOn (hI : Introspector.KeptByQueries r I) (name : String) (args : List Value) :
    (findCallerOn r c name args).Ensures I r (fun found => ∀ b ∈ found,
      b.Found I r c name args ∧ b.isAlive r = true) := by
  have hsearch : (Caller.search r c name args).Ensures I r (fun found => ∀ b ∈ found, b.Found I r c name args) :=
    (Search.ensures_method hI _).map fun _ h => Option.forall_mem_map.2 fun m hm => ⟨rfl, rfl, h m hm⟩
  apply hsearch.map
  intro found hfound b hb
  obtain ⟨hb, halive⟩ := Option.filter_eq_some_iff.1 hb
  exact ⟨hfound b hb, halive⟩

theorem found_findCaller (hI : Introspector.KeptByQueries r I) (target : Value) (name : String)
    (args : List Value) :
    (findCaller r target name args).Ensures I r (fun found => ∀ b ∈ found,
      b.Found I r target.cls name args ∧ b.isAlive r = true) := by
  unfold findCaller
  split
  · exact Search.ensures_pure (fun b hb => by cases hb)
  · exact found_findCallerOn hI name args

/-- **The constructor that is found** was answered for the name and the arguments, and is alive. -/
theorem found_findCreator (hI : Introspector.KeptByQueries r I) (name : String) (args : List Value) :
    (findCreator r name args).Ensures I r (fun found => ∀ b ∈ found,
      b.Found I r name args ∧ b.isAlive r = true) := by
  have hsearch : (Creator.search r name args).Ensures I r (fun found => ∀ b ∈ found, b.Found I r name args) :=
    (Search.ensures_constructor hI name args).map fun _ h => Option.forall_mem_map.2 fun x hx => ⟨rfl, h x hx⟩
  apply hsearch.map
  intro found hfound b hb
  obtain ⟨hb, halive⟩ := Option.filter_eq_some_iff.1 hb
  exact ⟨hfound b hb, halive⟩

end Engine

/-- A search that does nothing but ask queries. -/
def Search.OnlyAsks (r : Registry) (s : Search α) : Prop :=
  ∀ I, Introspector.KeptByQueries r I → ∃ p, s.Ensures I r p

theorem Search.OnlyAsks.asked {s : Search α} (h : s.OnlyAsks r) (k : Introspector) :
    ∃ qs, (s k).2 = k.asked r qs := by
  obtain ⟨p, hp⟩ := h _ (k.keptByQueries_asked r)
  exact (hp k ⟨[], rfl⟩).1

/-- How a discovery came to a binding: a member of the class it was about was answered, or a constructor
was answered for its name and arguments. -/
inductive Discovery.Found (I : Introspector → Prop) (r : Registry) : Discovery → Binding → Prop
  | member {d b c} (on : d.on? r = some c) (cls : b.cls = c) (into : LeadsInto I r c b.member?) : Found I r d b
  | constructor {k name args b} (hk : I k)
      (answer : (k.findConstructor r name args).1 = .ok (some b.constructor)) :
      Found I r (.create name args) (.creator b)

/-- **What a discovery finds** was answered by a query, and its class is alive. -/
theorem Discovery.ensures_search (hI : Introspector.KeptByQueries r I) (e : Engine) (d : Discovery) :
    (d.search e r).Ensures I r
      (fun found => ∀ b ∈ found, d.Found I r b ∧ r.Living b.member?) := by
  cases d with
  | read order target key =>
    apply (Resolver.found_firstReader hI _ target key).map
    intro found hfound x hx
    obtain ⟨b, hb, rfl⟩ := Option.map_eq_some_iff.1 hx
    obtain ⟨⟨hcls, hroute⟩, halive⟩ := hfound b hb
    exact ⟨.member rfl hcls hroute.leadsInto, Reader.isAlive_iff.1 halive⟩
  | write order target key v =>
    apply (Resolver.found_firstWriter hI _ target key v).map
    intro found hfound x hx
    obtain ⟨b, hb, rfl⟩ := Option.map_eq_some_iff.1 hx
    obtain ⟨⟨hcls, hroute⟩, halive⟩ := hfound b hb
    exact ⟨.member rfl hcls hroute.leadsInto, Writer.isAlive_iff.1 halive⟩
  | call target name args =>
    apply (Engine.found_findCaller hI target name args).map
    intro found hfound x hx
    obtain ⟨b, hb, rfl⟩ := Option.map_eq_some_iff.1 hx
    obtain ⟨hcame, halive⟩ := hfound b hb
    exact ⟨.member rfl hcame.cls hcame.gives.answered, fun m hm => by cases hm; exact halive⟩
  | callOn c name args =>
    apply (Engine.found_findCallerOn hI name args).map
    intro found hfound x hx
    obtain ⟨b, hb, rfl⟩ := Option.map_eq_some_iff.1 hx
    obtain ⟨hcame, halive⟩ := hfound b hb
    exact ⟨.member rfl hcame.cls hcame.gives.answered, fun m hm => by cases hm; exact halive⟩
  | create name args =>
    apply (Engine.found_findCreator hI name args).map
    intro found hfound x hx
    obtain ⟨b, hb, rfl⟩ := Option.map_eq_some_iff.1 hx
    obtain ⟨⟨-, k, hk, hanswer⟩, halive⟩ := hfound b hb
    exact ⟨.constructor hk hanswer, fun m hm => by cases hm; exact halive⟩

end MemberAccess
