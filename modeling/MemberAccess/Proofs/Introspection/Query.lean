import Mathlib.Data.Option.Basic
import MemberAccess.Introspection.Introspector

/-!
# Queries and touches

A query asks an introspector about a class or a constructor. What it does to the memory is a **touch**,
and so is everything else that changes the memory: a purge, and a lookup in a map that someone holds.

* `Introspector.ask`: the answer of a query, and the memory afterwards.
* `Introspector.touch`: the memory after a touch.
* `mem_held_purge`, `mem_held_put`, `held_findInHeld`: the maps that are held after a change.
* `mapOf_cases`, `findMethod_cases`: what asking for a map and for a method does to the memory.
-/

namespace MemberAccess

/-- What an introspector can be asked. -/
inductive Query where
  | map (c : ClassId)
  | method (c : ClassId) (s : Signature)
  | field (c : ClassId) (name : String)
  | overloads (c : ClassId) (name : String)
  | methodNames (c : ClassId)
  | fieldNames (c : ClassId)
  | constructor (name : String) (args : List Value)

/-- The answers to queries, by what they hold. -/
inductive Answer where
  | map (m : Option ClassMap)
  | method (m : Except AmbiguousCall (Option Method))
  | field (f : Option Field)
  | methods (ms : List Method)
  | names (names : List String)
  | constructor (c : Except AmbiguousCall (Option Constructor))

/-- What changes the memory of an introspector. -/
inductive Touch where
  | map (c : ClassId)
  | method (c : ClassId) (s : Signature)
  | constructor (name : String) (args : List Value)
  | purge (c : ClassId)
  /-- a lookup in a map that someone holds, by its serial -/
  | held (serial : Nat) (s : Signature)

/-- The touch of a query. Fields and names are read off the map of the class. -/
def Query.touch : Query → Touch
  | map c | field c _ | overloads c _ | methodNames c | fieldNames c => .map c
  | method c s => .method c s
  | constructor name args => .constructor name args

/-- What a map that is made is made of. -/
theorem ClassMap.build_eq_some {r : Registry} {P : Policy} {c : ClassId} {m : ClassMap}
    (h : ClassMap.build r P c = some m) :
    ∃ d, r.class? c = some d ∧ r.isAlive c = true ∧ P.allowsClass d = true ∧
      m = { cls := c, className := d.qualifiedName, index := (Population.ofLineage P (r.lineage d)).index,
            admitted := (Population.ofLineage P (r.lineage d)).admitted, fields := P.shownFields d } := by
  unfold build at h
  obtain ⟨d, hd, h⟩ := Option.bind_eq_some_iff.1 h
  obtain ⟨_, hg, h⟩ := Option.bind_eq_some_iff.1 h
  obtain ⟨_, -, h⟩ := Option.bind_eq_some_iff.1 h
  have hguard : r.isAlive c = true ∧ P.allowsClass d = true := by simpa [guard] using hg
  exact ⟨d, hd, hguard.1, hguard.2, (Option.some.inj h).symm⟩

namespace Introspector

/-- The answer of a query, and the memory afterwards. -/
def ask (k : Introspector) (r : Registry) : Query → Answer × Introspector
  | .map c => let (m, k) := k.mapOf r c; (.map m, k)
  | .method c s => let (m, k) := k.findMethod r c s; (.method m, k)
  | .field c name => let (f, k) := k.findField r c name; (.field f, k)
  | .overloads c name => let (ms, k) := k.overloads r c name; (.methods ms, k)
  | .methodNames c => let (names, k) := k.methodNames r c; (.names names, k)
  | .fieldNames c => let (names, k) := k.fieldNames r c; (.names names, k)
  | .constructor name args => let (c, k) := k.findConstructor r name args; (.constructor c, k)

/-- The memory after a touch. -/
def touch (k : Introspector) (r : Registry) : Touch → Introspector
  | .map c => (k.mapOf r c).2
  | .method c s => (k.findMethod r c s).2
  | .constructor name args => (k.findConstructor r name args).2
  | .purge c => (k.purge r c).2
  | .held serial s => match k.held? serial with
    | some m => (k.findInHeld r m s).2
    | none => k

theorem ask_touch (k : Introspector) (r : Registry) (q : Query) : (k.ask r q).2 = k.touch r q.touch := by
  cases q <;> rfl

theorem mem_held {k : Introspector} {m : ClassMap} :
    m ∈ k.held ↔ (∃ c, (c, some m) ∈ k.maps) ∨ m ∈ k.dropped := by
  unfold held
  rw [List.mem_append, List.mem_filterMap]
  constructor
  · rintro (⟨⟨c, m'⟩, hm, rfl⟩ | hm)
    · exact Or.inl ⟨c, hm⟩
    · exact Or.inr hm
  · rintro (⟨c, hm⟩ | hm)
    · exact Or.inl ⟨(c, some m), hm, rfl⟩
    · exact Or.inr hm

theorem mem_held_of_held? {k : Introspector} {serial : Nat} {m : ClassMap} (h : k.held? serial = some m) :
    m ∈ k.held ∧ m.serial = serial :=
  ⟨List.mem_of_find?_eq_some h, by simpa using List.find?_some h⟩

theorem mem_held_of_get? {k : Introspector} {c : ClassId} {m : ClassMap} (h : Assoc.get? c k.maps = some (some m)) :
    m ∈ k.held :=
  mem_held.2 (Or.inl ⟨c, Assoc.mem_of_get? h⟩)

/-- Dropping a map only moves it among those that are held. -/
theorem mem_held_purge {k : Introspector} {r : Registry} {c : ClassId} {m : ClassMap}
    (h : m ∈ (k.purge r c).2.held) : m ∈ k.held := by
  rcases mem_held.1 h with ⟨c', hm⟩ | hm
  · exact mem_held.2 (Or.inl ⟨c', (List.mem_filter.1 hm).1⟩)
  · rcases List.mem_append.1 hm with hm | hm
    · obtain ⟨kept, hkept, hid⟩ := Option.bind_eq_some_iff.1 (Option.mem_toList.1 hm)
      rw [id_eq] at hid
      subst hid
      exact mem_held_of_get? hkept
    · exact mem_held.2 (Or.inr hm)

/-- A purge leaves no constructors but those that were kept. -/
theorem mem_constructors_purge {k : Introspector} {r : Registry} {c : ClassId} {e : Signature × Lookup Constructor}
    (h : e ∈ (k.purge r c).2.constructors) : e ∈ k.constructors := by
  unfold purge at h
  simp only at h
  split at h
  · exact (List.mem_filter.1 h).1
  · exact h

/-- The maps that are held after one has been put at a class. -/
theorem mem_held_put {k : Introspector} {c : ClassId} {kept : Option ClassMap} {serials : Nat} {m : ClassMap}
    (h : m ∈ held { k with maps := Assoc.put c kept k.maps, serials := serials }) : m ∈ kept ∨ m ∈ k.held := by
  rcases mem_held.1 h with ⟨c', hm⟩ | hm
  · rcases Assoc.mem_put hm with heq | hm
    · cases heq
      exact Or.inl rfl
    · exact Or.inr (mem_held.2 (Or.inl ⟨c', hm⟩))
  · exact Or.inr (mem_held.2 (Or.inr hm))

/-- The maps that are held, with one of them renewed. -/
theorem held_findInHeld (k : Introspector) (r : Registry) (m : ClassMap) (s : Signature) :
    (k.findInHeld r m s).2.held = k.held.map fun n => if n.serial = m.serial then m.remember r s else n := by
  unfold findInHeld held ClassMap.find
  simp only [List.filterMap_map, List.map_append, List.map_filterMap]
  rfl

/-- The map that is made for a class, with its serial. -/
def made (k : Introspector) (r : Registry) (c : ClassId) : Option ClassMap :=
  (ClassMap.build r k.policy c).map ({ · with serial := k.serials })

/-- **Asking for a map**: it is kept and can be used, or it is dropped with its class, or it is made. -/
theorem mapOf_cases (k : Introspector) (r : Registry) (c : ClassId) :
    (∃ kept, Assoc.get? c k.maps = some kept ∧ usable r kept = true ∧ k.mapOf r c = (kept, k)) ∨
    (∃ m, Assoc.get? c k.maps = some (some m) ∧ r.isAlive m.cls = false ∧
      k.mapOf r c = (none, (k.purge r c).2)) ∨
    (Assoc.get? c k.maps = none ∧ k.mapOf r c =
      (k.made r c, { k with maps := Assoc.put c (k.made r c) k.maps, serials := k.serials + 1 })) := by
  unfold mapOf
  cases hget : Assoc.get? c k.maps with
  | none => exact Or.inr (Or.inr ⟨rfl, rfl⟩)
  | some kept =>
    simp only
    cases hu : usable r kept with
    | true => exact Or.inl ⟨kept, rfl, hu, rfl⟩
    | false =>
      cases kept with
      | none => cases hu
      | some m => exact Or.inr (Or.inl ⟨m, rfl, hu, rfl⟩)

/-- After asking for a map, one that was answered is the one that is kept, and its class is alive. -/
theorem get?_mapOf {k k' : Introspector} {r : Registry} {c : ClassId} {m : ClassMap}
    (h : k.mapOf r c = (some m, k')) :
    Assoc.get? c k'.maps = some (some m) ∧ (Assoc.get? c k.maps = some (some m) ∧ r.isAlive m.cls = true ∨
      ∃ m', ClassMap.build r k.policy c = some m' ∧ m = { m' with serial := k.serials }) := by
  -- of the three ways to answer, dropping a map answers none
  rcases mapOf_cases k r c with ⟨kept, hget, hu, e⟩ | ⟨m', -, -, e⟩ | ⟨hget, e⟩ <;> rw [e, Prod.mk.injEq] at h
  · obtain ⟨rfl, rfl⟩ := h
    exact ⟨hget, Or.inl ⟨hget, hu⟩⟩
  · cases h.1
  · obtain ⟨hm, rfl⟩ := h
    refine ⟨by simp only [Assoc.get?_put, if_true, hm], Or.inr ?_⟩
    obtain ⟨m', hm', rfl⟩ := Option.map_eq_some_iff.1 hm
    exact ⟨m', hm', rfl⟩

/-- **Asking for a method**: there is no map, or the map looks it up and remembers. -/
theorem findMethod_cases (k : Introspector) (r : Registry) (c : ClassId) (s : Signature) :
    ((k.mapOf r c).1 = none ∧ k.findMethod r c s = (.ok none, (k.mapOf r c).2)) ∨
    (∃ m k', k.mapOf r c = (some m, k') ∧ k.findMethod r c s =
      ((m.lookup r s).answer r m.className s,
        { k' with maps := Assoc.put c (some (m.remember r s)) k'.maps })) := by
  unfold findMethod
  rcases h : k.mapOf r c with ⟨_ | m, k'⟩
  · exact Or.inl ⟨rfl, rfl⟩
  · exact Or.inr ⟨m, k', rfl, rfl⟩

/-- What the map of a class answers to a call; no map answers none. -/
def answerOf (r : Registry) (s : Signature) : Option ClassMap → Except AmbiguousCall (Option Method)
  | none => .ok none
  | some m => (m.lookup r s).answer r m.className s

theorem findMethod_answer (k : Introspector) (r : Registry) (c : ClassId) (s : Signature) :
    (k.findMethod r c s).1 = answerOf r s (k.mapOf r c).1 := by
  rcases findMethod_cases k r c s with ⟨hnone, e⟩ | ⟨m, k', hmap, e⟩
  · rw [e, hnone]
    rfl
  · rw [e, hmap]
    rfl

/-- **Asking for a constructor**: there is no class to make instances of, or it is looked up and kept. -/
theorem findConstructor_cases (k : Introspector) (r : Registry) (name : String) (args : List Value) :
    k.findConstructor r name args = (.ok none, k) ∨
    (∃ d, r.named? name = some d ∧ k.constructible r d = true ∧ k.findConstructor r name args =
      ((k.constructorLookup r d (.ofArgs name args)).answer r name (.ofArgs name args),
        { k with
          constructors := Assoc.put (.ofArgs name args) (k.constructorLookup r d (.ofArgs name args))
            k.constructors })) := by
  unfold findConstructor
  cases hd : r.named? name with
  | none => exact Or.inl rfl
  | some d =>
    cases hc : k.constructible r d with
    | false => simp [hc]
    | true => exact Or.inr ⟨d, rfl, hc, by simp [hc]⟩

end Introspector

end MemberAccess
