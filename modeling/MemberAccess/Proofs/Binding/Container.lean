import MemberAccess.Proofs.Binding.OtherKey
import MemberAccess.Proofs.Introspection.History
import MemberAccess.Proofs.Registry.Rooted

/-!
# Containers in brackets

A hash map, an array list and an array are what brackets are there for. Under the unrestricted policy the classes of
the first two show one method for each of reading and writing; its reference parameters take everything that is
registered, and `null`. So in brackets a search always comes to that method, or to the elements of an array.

* `ClassMap.Sole`: a method is the only one of its name, and `Sole.lookup`: it is found for whatever it takes.
* `Registry.conversionCost_object`: a parameter of the root class takes everything.
* `Ready`: a registry with a coherent memory, and the core classes alive.
* `Ready.findWriter_map`, `Ready.findReader_map`, `Ready.findWriter_sequence`, `Ready.findReader_sequence`: what is
  found on maps, and on lists and arrays.
-/

namespace MemberAccess

variable {r : Registry} {k : Introspector} {c : ClassId} {x : Method} {s : Signature}

/-! ## A method without overloads -/

theorem choose_singleton {α : Type} (params : α → List Ty) {actuals : List Ty} {a : α}
    (h : (callCost r (params a) actuals).isSome = true) : choose r params actuals [a] = .one a := by
  obtain ⟨cost, hcost⟩ := Option.isSome_iff_exists.1 h
  simp [choose, Ranking.rank, Choice.ofTied, hcost]

/-- A core class is there from the start. -/
theorem ClassId.index_lt_of_isCore (h : c.isCore = true) : c.index < Registry.initial.size := by
  have hcore : c.index < coreCount := by simpa [isCore] using h
  exact Nat.lt_of_lt_of_le hcore Registry.proper_initial.core

/-- A method is the only one of its name in a map, and the only thing that the map knows about the name. -/
structure ClassMap.Sole (b : ClassMap) (name : String) (x : Method) : Prop where
  overloads : b.overloads name = [x]
  index : b.index.filter (·.1.name = name) = [(.ofMethod x, .found x)]

/-- **A method without overloads is found** for whatever it can be called with. -/
theorem ClassMap.Sole.lookup {b : ClassMap} (h : b.Sole s.name x)
    (hcost : (callCost r x.params s.params).isSome = true) : b.lookup r s = .found x := by
  unfold ClassMap.lookup
  cases hget : Assoc.get? s b.index with
  | some known =>
    have hmem : (s, known) ∈ b.index.filter (·.1.name = s.name) :=
      List.mem_filter.2 ⟨Assoc.mem_of_get? hget, by simp⟩
    rw [h.index] at hmem
    have hentry := List.mem_singleton.1 hmem
    exact congrArg Prod.snd hentry
  | none =>
    simp only [ClassMap.resolve]
    rw [h.overloads, choose_singleton (fun x : Method => x.params) hcost]
    rfl

/-! ## What a parameter of the root class takes -/

namespace Registry

/-- **A parameter of the root class takes every value** of a registered class, and `null`. -/
theorem conversionCost_object (hp : r.Proper) (hinit : initial.GrowsTo r) {v : Value} (hv : v.type.KnownTo r) :
    (conversionCost r .object v.type).isSome = true := by
  by_cases hnull : v.type = .null
  · rw [hnull]
    rfl
  · obtain ⟨c, hc⟩ : ∃ c, v.type = .ofClass c := by
      cases v with
      | null => exact absurd rfl hnull
      | _ => exact ⟨_, rfl⟩
    have hassignable : r.isAssignable c .object = true := by
      apply isAssignable_object hp hinit
      rw [hc] at hv
      exact hv c rfl
    have hprimitive : Ty.object.primitive? = none := rfl
    rw [hc]
    unfold conversionCost
    rw [if_neg (by simp)]
    split
    · rfl
    · rw [hprimitive]
      simp only [Ty.isPrimitive, Ty.object, Ty.cls?, Option.isSome_map, Bool.false_eq_true, if_false]
      exact hassignable

theorem conversionCost_int (r : Registry) (i : Int32) : (conversionCost r .int (Value.int i).type).isSome = true := by
  have htype : (Value.int i).type = .ofClass .integer := rfl
  rw [htype]
  unfold conversionCost
  rw [if_neg (by decide), if_pos (by decide)]
  rfl

end Registry

/-- What a call costs is known when its arguments can be passed, one by one. -/
theorem callCost_cons {formal actual : Ty} {formals actuals : List Ty}
    (h : (conversionCost r formal actual).isSome = true) (hrest : (callCost r formals actuals).isSome = true) :
    (callCost r (formal :: formals) (actual :: actuals)).isSome = true := by
  rw [isSome_callCost_cons, h, hrest]
  rfl

/-! ## The methods of the containers -/

/-- A core class shows a method of its own as the only one of a name, if nothing is hidden. -/
structure ClassId.Shows (c : ClassId) (name : String) (x : Method) : Prop where
  sole : ∃ b, ClassMap.plain .initial .unrestricted c = some b ∧ b.Sole name x
  name : x.name = name
  declaring : x.declaring = c

namespace Containers

theorem exists_put : ∃ x : Method, ClassId.Shows .hashMap "put" x ∧ x.params = [.object, .object] ∧
    ∀ target key v, x.invoke target [key, v] = mapPut target key v := by
  refine ⟨_, ⟨⟨_, rfl, rfl, rfl⟩, rfl, rfl⟩, rfl, ?_⟩
  intros
  rfl

theorem exists_get_map : ∃ x : Method, ClassId.Shows .hashMap "get" x ∧ x.params = [.object] ∧
    ∀ target key, x.invoke target [key] = mapGet target key := by
  refine ⟨_, ⟨⟨_, rfl, rfl, rfl⟩, rfl, rfl⟩, rfl, ?_⟩
  intros
  rfl

theorem exists_set : ∃ x : Method, ClassId.Shows .arrayList "set" x ∧ x.params = [.int, .object] ∧
    ∀ target i v, x.invoke target [.int i, v] = (do let _ ← target.asList; listSet target i v) := by
  refine ⟨_, ⟨⟨_, rfl, rfl, rfl⟩, rfl, rfl⟩, rfl, ?_⟩
  intros
  rfl

theorem exists_get_list : ∃ x : Method, ClassId.Shows .arrayList "get" x ∧ x.params = [.int] ∧
    ∀ target i, x.invoke target [.int i] = (do let _ ← target.asList; listGet target i) := by
  refine ⟨_, ⟨⟨_, rfl, rfl, rfl⟩, rfl, rfl⟩, rfl, ?_⟩
  intros
  rfl

end Containers

/-! ## Searches on containers -/

/-- A registry that a host can make, in which the core classes are alive, and a coherent memory that hides nothing. -/
structure Ready (r : Registry) (k : Introspector) : Prop where
  proper : r.Proper
  closed : r.Closed
  grown : Registry.initial.GrowsTo r
  made : r.Made
  alive : ∀ c : ClassId, c.isCore = true → r.isAlive c = true
  memory : k.Coherent .unrestricted r

namespace Ready

variable (h : Ready r k)

include h

/-- **The only method of a name on a core class is found** for whatever it takes, and the memory stays as good. -/
theorem method (hx : c.Shows s.name x) (hcore : c.isCore = true) (hs : s.KnownTo r)
    (hcost : (callCost r x.params s.params).isSome = true) :
    ∃ k', Search.method r c s k = (.ok (some x), k') ∧ Ready r k' := by
  have hinitial : c.index < Registry.initial.size := ClassId.index_lt_of_isCore hcore
  have hknown : c.index < r.size := Nat.lt_of_lt_of_le hinitial h.grown.size_le
  obtain ⟨b, hb, hsole⟩ := hx.sole
  -- the map of the class is the one that is made at the start
  have hbuild : ClassMap.build r .unrestricted c = some b := by
    rw [ClassMap.build_eq h.proper, if_pos (h.alive c hcore),
      ClassMap.plain_growsTo Registry.proper_initial h.grown .unrestricted hinitial, hb]
  have hanswer : (k.findMethod r c s).1 = .ok (some x) := by
    obtain ⟨-, hmap⟩ := h.memory.mapOf h.proper h.closed hknown
    rw [hbuild] at hmap
    rw [Introspector.findMethod_answer]
    generalize (k.mapOf r c).1 = m at hmap
    cases hmap with
    | some hext =>
      simp only [Introspector.answerOf]
      rw [hext.lookup_eq, hsole.lookup hcost]
      rfl
  exact ⟨_, Prod.ext hanswer rfl, h.proper, h.closed, h.grown, h.made, h.alive,
    h.memory.findMethod h.proper h.closed hknown hs⟩

theorem isAssignable_core {core : ClassId} (hc : c.isCore = true) (hcore : core.isCore = true) :
    r.isAssignable c core = Registry.initial.isAssignable c core :=
  Registry.isAssignable_growsTo Registry.proper_initial (.refl _) h.grown (ClassId.index_lt_of_isCore hc)
    (ClassId.index_lt_of_isCore hcore)

theorem knownTo_int (i : Int32) : (Value.int i).type.KnownTo r := by
  intro c hc
  cases hc
  have hcore : ClassId.integer.index < ClassId.coreCount := by decide
  exact Nat.lt_of_lt_of_le hcore h.proper.core

theorem isArray_core (hc : c.isCore = true) : r.isArray c = Registry.initial.isArray c := by
  unfold Registry.isArray
  rw [h.grown.class?_eq (ClassId.index_lt_of_isCore hc)]

end Ready

namespace Search

variable {β : Type} {alive : β → Bool} {S : Search (Option β)} {rest : List (Search (Option β))} {k' : Introspector}

theorem firstAlive_of_found {b : β} (hS : S k = (.ok (some b), k')) (halive : alive b = true) :
    firstAlive alive (S :: rest) k = (.ok (some b), k') := by
  unfold firstAlive
  rw [bind_apply, hS]
  simp only [Option.filter, halive, if_true]
  rfl

theorem firstAlive_of_nothing (hS : S k = (.ok none, k')) :
    firstAlive alive (S :: rest) k = firstAlive alive rest k' := by
  rw [firstAlive, bind_apply, hS]
  rfl

/-- A search that takes what another one finds further. -/
theorem found_map {α : Type} {T : Search (Option α)} {a : α} {f : α → β} (hT : T k = (.ok (some a), k')) :
    (do pure ((← T).map f) : Search (Option β)) k = (.ok (some (f a)), k') := by
  rw [map_apply T (·.map f), hT]
  rfl

end Search

/-- In brackets, maps are looked at first. -/
theorem Strategy.resolvers_bracket (σ : Strategy) (r : Registry) (c : ClassId) :
    ∃ rest, σ.resolvers r c .bracket = .map :: rest := by
  unfold Strategy.resolvers
  split
  · exact ⟨[], rfl⟩
  · exact ⟨_, rfl⟩

/-- In brackets, lists are looked at after maps for what is no map. -/
theorem Strategy.resolvers_bracket_list (σ : Strategy) (hmap : r.isAssignable c .map = false) :
    σ.resolvers r c .bracket = [.map, .list, .duck, .property, .field] := by
  unfold Strategy.resolvers
  rw [if_neg (by simp [hmap])]
  rfl

namespace Ready

variable (h : Ready r k) {key v : Value} {o : ObjectRef} (σ : Strategy)

include h

/-- **On a hash map** a search for a writer comes to the method `put`. -/
theorem findWriter_map (ho : o.cls = .hashMap) (hkey : key.type.KnownTo r) (hv : v.type.KnownTo r) :
    ∃ x k', Resolver.firstWriter (σ.resolvers r o.cls .bracket) r (.object o) key v k =
        (.ok (some ⟨o.cls, .map x key⟩), k') ∧ Ready r k' ∧ x.name = "put" ∧
      ∀ target, x.invoke target [key, v] = Containers.mapPut target key v := by
  obtain ⟨x, hx, hparams, hbody⟩ := Containers.exists_put
  have hs : (Signature.ofArgs "put" [key, v]).KnownTo r := Signature.knownTo_ofArgs (by simp [hkey, hv])
  have hcost : (callCost r x.params (Signature.ofArgs "put" [key, v]).params).isSome = true := by
    rw [hparams]
    exact callCost_cons (Registry.conversionCost_object h.proper h.grown hkey)
      (callCost_cons (Registry.conversionCost_object h.proper h.grown hv) rfl)
  obtain ⟨k', hfound, hready⟩ := h.method hx rfl hs hcost
  rw [← ho] at hfound
  have hmap : r.isAssignable o.cls .map = true := by
    rw [ho, h.isAssignable_core rfl rfl]
    decide
  have hsearch : Resolver.writer r o.cls key v .map k = (.ok (some ⟨o.cls, .map x key⟩), k') := by
    simp only [Resolver.writer, Writer.search, Writer.searchRoute, hmap, if_true]
    exact Search.found_map (Search.found_map hfound)
  have halive : Writer.isAlive ⟨o.cls, .map x key⟩ r = true := by
    simp only [Writer.isAlive, WriteRoute.declaring?, Option.map_some, Option.getD_some, hx.declaring]
    exact h.alive .hashMap rfl
  obtain ⟨rest, hrest⟩ := σ.resolvers_bracket r o.cls
  refine ⟨x, k', ?_, hready, hx.name, fun target => hbody target key v⟩
  rw [hrest]
  exact Search.firstAlive_of_found hsearch halive

/-- **On a hash map** a search for a reader comes to the method `get`. -/
theorem findReader_map (ho : o.cls = .hashMap) (hkey : key.type.KnownTo r) :
    ∃ x k', Resolver.firstReader (σ.resolvers r o.cls .bracket) r (.object o) key k =
        (.ok (some ⟨o.cls, .map x key⟩), k') ∧ Ready r k' ∧
      ∀ target, x.invoke target [key] = Containers.mapGet target key := by
  obtain ⟨x, hx, hparams, hbody⟩ := Containers.exists_get_map
  have hs : (Signature.ofArgs "get" [key]).KnownTo r := Signature.knownTo_ofArgs (by simp [hkey])
  have hcost : (callCost r x.params (Signature.ofArgs "get" [key]).params).isSome = true := by
    rw [hparams]
    exact callCost_cons (Registry.conversionCost_object h.proper h.grown hkey) rfl
  obtain ⟨k', hfound, hready⟩ := h.method hx rfl hs hcost
  rw [← ho] at hfound
  have hmap : r.isAssignable o.cls .map = true := by
    rw [ho, h.isAssignable_core rfl rfl]
    decide
  have hsearch : Resolver.reader r o.cls key .map k = (.ok (some ⟨o.cls, .map x key⟩), k') := by
    simp only [Resolver.reader, Reader.search, Reader.searchRoute, hmap, if_true]
    exact Search.found_map (Search.found_map hfound)
  have halive : Reader.isAlive ⟨o.cls, .map x key⟩ r = true := by
    simp only [Reader.isAlive, ReadRoute.declaring?, Option.map_some, Option.getD_some, hx.declaring]
    exact h.alive .hashMap rfl
  obtain ⟨rest, hrest⟩ := σ.resolvers_bracket r o.cls
  refine ⟨x, k', ?_, hready, fun target => hbody target key⟩
  rw [hrest]
  exact Search.firstAlive_of_found hsearch halive

end Ready

/-! ## Lists and arrays -/

/-- What is read and written by an index: an array list, or an array. -/
inductive Sequence where
  | list (o : ObjectRef)
  | array (a : ArrayRef)

namespace Sequence

def value : Sequence → Value
  | list o => .object o
  | array a => .array a

theorem isNull_value (q : Sequence) : q.value.isNull = false := by cases q <;> rfl

/-- The object is of the class of array lists, the array of a class of arrays. -/
def In (r : Registry) : Sequence → Prop
  | list o => o.cls = .arrayList
  | array a => r.isArray a.cls = true

/-- The elements, if there is a list behind the object. -/
def items? (h : Heap) : Sequence → Option (List Value)
  | list o => match h.state o with
    | .list items => some items
    | _ => none
  | array a => some (h.elements a)

/-- The heap with other elements. -/
def replace (h : Heap) (items : List Value) : Sequence → Heap
  | list o => h.setState o (.list items)
  | array a => h.setElements a items

/-- Whether it takes a value as an element: a primitive array takes its own kind, everything else any value. -/
def accepts (v : Value) : Sequence → Except HostFault Unit
  | list _ => .ok ()
  | array a => ArrayRef.accepts a.component v

/-- The member that elements are read through, as failures name it. -/
def reads : Sequence → String
  | list _ => "get"
  | array _ => "[]"

/-- The member that elements are written through. -/
def writes : Sequence → String
  | list _ => "set"
  | array _ => "[]"

/-- What stands behind an index: a method of lists, or the elements themselves. -/
def source (x : Method) : Sequence → Indexed
  | list _ => .list x
  | array _ => .array

end Sequence

/-- A run of host code reads the element at an index, and leaves the heap alone. -/
def Host.ReadsAt (run : Host Value) (h : Heap) (items : List Value) (i : Int32) : Prop :=
  run h = match checkIndex i items.length with
    | .ok n => (.ok (items[n]?.getD .null), h)
    | .error f => (.error (.fault f), h)

/-- A run of host code writes a value at an index and answers it. If it fails, it has changed nothing. -/
def Host.WritesAt (run : Host Value) (h : Heap) (q : Sequence) (items : List Value) (i : Int32) (v : Value) : Prop :=
  run h = match q.accepts v, checkIndex i items.length with
    | .ok _, .ok n => (.ok v, q.replace h (items.set n v))
    | .ok _, .error f => (.error (.fault f), h)
    | .error f, _ => (.error (.fault f), h)

section Effects

variable {h : Heap} {items : List Value} {q : Sequence} {i : Int32} {v : Value}

theorem Sequence.items?_list {o : ObjectRef} (hitems : (Sequence.list o).items? h = some items) :
    h.state o = .list items := by
  unfold Sequence.items? at hitems
  cases hstate : h.state o with
  | list items' =>
    simp only [hstate, Option.some.injEq] at hitems
    rw [hitems]
  | bare | map | record =>
    simp only [hstate] at hitems
    cases hitems

/-- **Reading at an index**, by the method of lists or in an array. -/
theorem Sequence.readsAt (hitems : q.items? h = some items)
    (hbody : ∀ target, x.invoke target [.int i] = (do let _ ← target.asList; Containers.listGet target i)) :
    ((ReadRoute.list (q.source x) i).access q.value).host.ReadsAt h items i := by
  unfold Host.ReadsAt
  cases q with
  | list o =>
    have hstate : h.state o = .list items := items?_list hitems
    have hhost : ((ReadRoute.list (.list x) i).access (.object o)).host = x.invoke (.object o) [.int i] := rfl
    rw [source, value, hhost, hbody, bind_apply, Containers.asList_apply hstate]
    exact Containers.listGet_apply hstate i
  | array a =>
    have hhost : ((ReadRoute.list .array i).access (.array a)).host h = a.get i h := rfl
    cases hitems
    rw [source, value, hhost]
    exact ArrayRef.get_apply a i h

/-- **Writing at an index**, by the method of lists or in an array. -/
theorem Sequence.writesAt (hitems : q.items? h = some items)
    (hbody : ∀ target, x.invoke target [.int i, v] = (do let _ ← target.asList; Containers.listSet target i v)) :
    ((WriteRoute.list (q.source x) i).access q.value v).host.WritesAt h q items i v := by
  unfold Host.WritesAt
  cases q with
  | list o =>
    have hstate : h.state o = .list items := items?_list hitems
    have hhost : ((WriteRoute.list (.list x) i).access (.object o) v).host =
        (do let _ ← x.invoke (.object o) [.int i, v]; pure v) := rfl
    rw [source, value, hhost, bind_apply, hbody, bind_apply, Containers.asList_apply hstate]
    simp only
    rw [Containers.listSet_apply hstate]
    cases checkIndex i items.length <;> rfl
  | array a =>
    have hhost : ((WriteRoute.list .array i).access (.array a) v).host = (do a.set i v; pure v) := rfl
    cases hitems
    rw [source, value, hhost, bind_apply, ArrayRef.set_apply]
    simp only [accepts]
    cases ArrayRef.accepts a.component v with
    | error f => rfl
    | ok => cases checkIndex i (h.elements a).length <;> rfl

end Effects

namespace Ready

variable (h : Ready r k) {key v : Value} {i : Int32} (σ : Strategy) {q : Sequence}

include h

/-- What is read and written by an index is no map. -/
theorem isAssignable_map (hq : q.In r) : r.isAssignable q.value.cls .map = false := by
  cases q with
  | list o =>
    have ho : (Sequence.list o).value.cls = .arrayList := hq
    rw [ho, h.isAssignable_core rfl rfl]
    decide
  | array a => exact Registry.isAssignable_map_of_isArray h.proper h.grown h.made hq

/-- **A search by an index** comes to the method of lists, or to the elements of the array. -/
theorem indexed (hq : q.In r) (hx : ClassId.Shows .arrayList s.name x) (hs : s.KnownTo r)
    (hcost : (callCost r x.params s.params).isSome = true) :
    ∃ k', Indexed.search r q.value.cls s k = (.ok (some (q.source x)), k') ∧ Ready r k' ∧
      ((q.source x).declaring?.map r.isAlive).getD true = true := by
  cases q with
  | list o =>
    have ho : (Sequence.list o).value.cls = .arrayList := hq
    obtain ⟨k', hfound, hready⟩ := h.method hx rfl hs hcost
    have hlist : r.isAssignable .arrayList .list = true := by
      rw [h.isAssignable_core rfl rfl]
      decide
    have harray : r.isArray .arrayList = false := by
      rw [h.isArray_core rfl]
      rfl
    have halive : ((Sequence.source x (.list o)).declaring?.map r.isAlive).getD true = true := by
      simp only [Sequence.source, Indexed.declaring?, Option.map_some, Option.getD_some, hx.declaring]
      exact h.alive .arrayList rfl
    refine ⟨k', ?_, hready, halive⟩
    rw [ho]
    simp only [Indexed.search, harray, hlist, if_true, Bool.false_eq_true, if_false]
    exact Search.found_map hfound
  | array a =>
    have harray : r.isArray (Sequence.array a).value.cls = true := hq
    refine ⟨k, ?_, h, rfl⟩
    simp only [Indexed.search, harray, if_true]
    rfl

/-- **On a list or an array** a search for a reader with an index comes to its elements. -/
theorem findReader_sequence (hq : q.In r) (hi : key.toIndex? = some i) :
    ∃ x k', Resolver.firstReader (σ.resolvers r q.value.cls .bracket) r q.value key k =
        (.ok (some ⟨q.value.cls, .list (q.source x) i⟩), k') ∧ Ready r k' ∧ x.name = "get" ∧
      ∀ target, x.invoke target [.int i] = (do let _ ← target.asList; Containers.listGet target i) := by
  obtain ⟨x, hx, hparams, hbody⟩ := Containers.exists_get_list
  have hsignature : Signature.ofTypes "get" [.int] = .ofArgs "get" [.int i] := rfl
  have hs : (Signature.ofArgs "get" [.int i]).KnownTo r := Signature.knownTo_ofArgs (by simp [h.knownTo_int i])
  have hcost : (callCost r x.params (Signature.ofArgs "get" [.int i]).params).isSome = true := by
    rw [hparams]
    exact callCost_cons (Registry.conversionCost_int r i) rfl
  obtain ⟨k', hindexed, hready, hsource⟩ := h.indexed hq hx hs hcost
  have halive : Reader.isAlive ⟨q.value.cls, .list (q.source x) i⟩ r = true := hsource
  have hmap : r.isAssignable q.value.cls .map = false := h.isAssignable_map hq
  have hpass : Resolver.reader r q.value.cls key .map k = (.ok none, k) := by
    simp only [Resolver.reader, Reader.search, Reader.searchRoute, hmap, Bool.false_eq_true, if_false]
    rfl
  have hsearch : Resolver.reader r q.value.cls key .list k = (.ok (some ⟨q.value.cls, .list (q.source x) i⟩), k') := by
    simp only [Resolver.reader, Reader.search, Reader.searchRoute, hi, hsignature]
    exact Search.found_map (Search.found_map hindexed)
  refine ⟨x, k', ?_, hready, hx.name, fun target => hbody target i⟩
  simp only [Resolver.firstReader, q.isNull_value, σ.resolvers_bracket_list hmap, Bool.false_eq_true, if_false,
    List.map_cons]
  rw [Search.firstAlive_of_nothing hpass]
  exact Search.firstAlive_of_found hsearch halive

/-- **On a list or an array** a search for a writer with an index comes to its elements. -/
theorem findWriter_sequence (hq : q.In r) (hi : key.toIndex? = some i) (hv : v.type.KnownTo r) :
    ∃ x k', Resolver.firstWriter (σ.resolvers r q.value.cls .bracket) r q.value key v k =
        (.ok (some ⟨q.value.cls, .list (q.source x) i⟩), k') ∧ Ready r k' ∧ x.name = "set" ∧
      ∀ target, x.invoke target [.int i, v] = (do let _ ← target.asList; Containers.listSet target i v) := by
  obtain ⟨x, hx, hparams, hbody⟩ := Containers.exists_set
  have hs : (Signature.ofArgs "set" [.int i, v]).KnownTo r :=
    Signature.knownTo_ofArgs (by simp [h.knownTo_int i, hv])
  have hcost : (callCost r x.params (Signature.ofArgs "set" [.int i, v]).params).isSome = true := by
    rw [hparams]
    exact callCost_cons (Registry.conversionCost_int r i)
      (callCost_cons (Registry.conversionCost_object h.proper h.grown hv) rfl)
  obtain ⟨k', hindexed, hready, hsource⟩ := h.indexed hq hx hs hcost
  have halive : Writer.isAlive ⟨q.value.cls, .list (q.source x) i⟩ r = true := hsource
  have hmap : r.isAssignable q.value.cls .map = false := h.isAssignable_map hq
  have hpass : Resolver.writer r q.value.cls key v .map k = (.ok none, k) := by
    simp only [Resolver.writer, Writer.search, Writer.searchRoute, hmap, Bool.false_eq_true, if_false]
    rfl
  have hsearch :
      Resolver.writer r q.value.cls key v .list k = (.ok (some ⟨q.value.cls, .list (q.source x) i⟩), k') := by
    simp only [Resolver.writer, Writer.search, Writer.searchRoute, hi]
    exact Search.found_map (Search.found_map hindexed)
  refine ⟨x, k', ?_, hready, hx.name, fun target => hbody target i v⟩
  simp only [Resolver.firstWriter, q.isNull_value, σ.resolvers_bracket_list hmap, Bool.false_eq_true, if_false,
    List.map_cons]
  rw [Search.firstAlive_of_nothing hpass]
  exact Search.firstAlive_of_found hsearch halive

end Ready

end MemberAccess
