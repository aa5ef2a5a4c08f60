import MemberAccess.Proofs.Binding.Fixed
import MemberAccess.Proofs.Registry.Reach

/-!
# The order of brackets

In brackets maps, lists and the method `get` are looked at before accessors and fields. Each of these searches is a
few questions to the memory, and whether it ends the whole search is a matter of what `get` answers. `get` is looked
for with the very type of the key.

* `Introspector.HasGet`: `get` answers a key; `Introspector.Indexes`: what an index reads.
* `Resolver.reader_map`, `reader_list`, `reader_duck`: what the searches answer.
* `Resolver.goesOn_iff`, `passes_map_iff`, `passes_list_int`, `passes_duck_iff`: when a search goes on.
* `Resolver.BracketFinds`, `firstReader_bracket_iff`: what is found in the order of brackets.
* `Resolver.finds_map_iff`, `finds_list_iff`, `finds_duck`: what maps, lists and `get` are read through.
-/

namespace MemberAccess

variable {r : Registry} {c : ClassId} {k : Introspector} {key key' : Value} {b : Reader}

/-- The method `get` answers a key in a memory: it is found and alive, or there is a tie. -/
def Introspector.HasGet (k : Introspector) (r : Registry) (c : ClassId) (key : Value) : Prop :=
  ∀ found, (k.findMethod r c (.ofArgs "get" [key])).1 = .ok found → ∃ m ∈ found, r.isAlive m.declaring = true

/-- What a class is read through by an index: the elements of an array, or the method `get` of a list. -/
def Introspector.Indexes (k : Introspector) (r : Registry) (c : ClassId) : Indexed → Prop
  | .array => r.isArray c = true
  | .list m => ¬r.isArray c = true ∧ r.isAssignable c .list = true ∧
      (k.findMethod r c (.ofTypes "get" [.int])).1 = .ok (some m) ∧ r.isAlive m.declaring = true

/-- What `get` answers depends on the type of the key. -/
theorem Introspector.hasGet_of_type (h : key'.type = key.type) : k.HasGet r c key' ↔ k.HasGet r c key := by
  unfold HasGet
  simp only [Signature.ofArgs, List.map_cons, List.map_nil, h]

/-! ## What the searches answer -/

namespace Resolver

theorem map_map_answer {ε α β γ : Type} (answer : Except ε (Option α)) (f : α → β) (g : β → γ) :
    (answer.map (·.map f)).map (·.map g) = answer.map (·.map fun a => g (f a)) := by
  cases answer with
  | error e => rfl
  | ok found => cases found <;> rfl

theorem map_eq_found_iff {ε α β : Type} {answer : Except ε (Option α)} {f : α → β} {b : β} :
    answer.map (·.map f) = .ok (some b) ↔ ∃ a, answer = .ok (some a) ∧ f a = b := by
  constructor
  · intro h
    cases answer with
    | error e => cases h
    | ok found =>
      obtain ⟨a, rfl, ha⟩ := Option.map_eq_some_iff.1 (Except.ok.inj h)
      exact ⟨a, rfl, ha⟩
  · rintro ⟨a, rfl, rfl⟩
    rfl

theorem reader_map : (reader r c key .map k).1 = if r.isAssignable c .map then
    (k.findMethod r c (.ofArgs "get" [key])).1.map (·.map fun m => ⟨c, .map m key⟩) else .ok none := by
  simp only [reader, Reader.search, Reader.searchRoute]
  rw [Search.map_apply]
  split
  · rw [Search.map_apply]
    exact map_map_answer (k.findMethod r c (.ofArgs "get" [key])).1 _ _
  · rfl

theorem reader_list : (reader r c key .list k).1 = match key.toIndex? with
    | none => .ok none
    | some i => if r.isArray c then .ok (some ⟨c, .list .array i⟩)
      else if r.isAssignable c .list then
        (k.findMethod r c (.ofArgs "get" [.int i])).1.map (·.map fun m => ⟨c, .list (.list m) i⟩)
      else .ok none := by
  simp only [reader, Reader.search, Reader.searchRoute]
  rw [Search.map_apply]
  cases key.toIndex? with
  | none => rfl
  | some i =>
    simp only
    rw [Search.map_apply]
    unfold Indexed.search
    split
    · rfl
    · split
      · rw [Search.map_apply]
        -- the method, the route through it and the reader of that route
        let answer := (k.findMethod r c (.ofArgs "get" [.int i])).1
        exact (congrArg (Except.map _) (map_map_answer answer Indexed.list _)).trans (map_map_answer answer _ _)
      · rfl

theorem reader_duck (hk : k.InOrder) : (reader r c key .duck k).1 =
    (k.findMethod r c (.ofArgs "get" [key])).1.bind fun
      | some m => .ok (some ⟨c, .duck m key key⟩)
      | none => match key.toString?.bind Number.readInt32 with
        | none => .ok none
        | some n => (k.findMethod r c (.ofArgs "get" [.int n])).1.map (·.map fun m => ⟨c, .duck m key (.int n)⟩) := by
  have hduck : (Reader.searchDuck r c key k).1 = (k.findMethod r c (.ofArgs "get" [key])).1.bind fun
      | some m => .ok (some (.duck m key key))
      | none => match key.toString?.bind Number.readInt32 with
        | none => .ok none
        | some n => (k.findMethod r c (.ofArgs "get" [.int n])).1.map (·.map (.duck · key (.int n))) := by
    refine ((Search.fixed_method c _).bind_answer (fun found => ?_) hk).trans ?_
    · cases found with
      | some m => exact Search.fixed_pure _
      | none =>
        simp only
        split
        · exact Search.fixed_pure none
        · exact (Search.fixed_method c _).map
    · congr 1
      funext found
      cases found with
      | some m => rfl
      | none =>
        simp only
        cases key.toString?.bind Number.readInt32 with
        | none => rfl
        | some n => exact congrArg Prod.fst (Search.map_apply _ _ k)
  simp only [reader, Reader.search, Reader.searchRoute]
  rw [Search.map_apply]
  change (Reader.searchDuck r c key k).1.map _ = _
  rw [hduck]
  cases (k.findMethod r c (.ofArgs "get" [key])).1 with
  | error e => rfl
  | ok found =>
    cases found with
    | some m => rfl
    | none =>
      simp only [Except.bind]
      cases key.toString?.bind Number.readInt32 with
      | none => rfl
      | some n => exact map_map_answer (k.findMethod r c (.ofArgs "get" [.int n])).1 _ _

/-! ## Which searches go on -/

/-- A search that goes through what `get` answers goes on unless that is alive. -/
theorem goesOn_iff {f : Method → Reader} (hf : ∀ m, (f m).isAlive r = r.isAlive m.declaring) :
    (∃ found, (k.findMethod r c (.ofArgs "get" [key])).1.map (·.map f) = .ok found ∧
      ∀ b ∈ found, b.isAlive r = false) ↔ ¬k.HasGet r c key := by
  unfold Introspector.HasGet
  cases (k.findMethod r c (.ofArgs "get" [key])).1 with
  | error e => simp [Except.map]
  | ok found => cases found <;> simp [Except.map, hf]

/-- **A search among maps goes on** unless the class is a map and `get` answers the key. -/
theorem passes_map_iff : Search.Passes (·.isAlive r) (reader r c key .map) k ↔
    ¬(r.isAssignable c .map = true ∧ k.HasGet r c key) := by
  unfold Search.Passes
  rw [reader_map]
  by_cases hmap : r.isAssignable c .map = true
  · rw [if_pos hmap, goesOn_iff fun _ => rfl]
    simp [hmap]
  · simp [hmap]

/-- A search among lists goes on for keys that are no indices. -/
theorem passes_list_of_none (h : key.toIndex? = none) : Search.Passes (·.isAlive r) (reader r c key .list) k := by
  refine ⟨none, ?_, fun b hb => by cases hb⟩
  rw [reader_list, h]

theorem passes_list_int {n : Int32} (harray : r.isArray c = false) (h : ¬k.HasGet r c (.int n)) :
    Search.Passes (·.isAlive r) (reader r c (.int n) .list) k := by
  unfold Search.Passes
  rw [reader_list]
  simp only [Value.toIndex?, harray, Bool.false_eq_true, if_false]
  split
  · exact (goesOn_iff fun _ => rfl).2 h
  · exact ⟨none, rfl, fun b hb => by cases hb⟩

/-- The elements of an array end the search. -/
theorem isArray_of_passes_list (h : Search.Passes (·.isAlive r) (reader r c key .list) k)
    (hindex : key.toIndex?.isSome = true) : r.isArray c = false := by
  obtain ⟨found, hfound, hdead⟩ := h
  obtain ⟨i, hi⟩ := Option.isSome_iff_exists.1 hindex
  cases harray : r.isArray c with
  | false => rfl
  | true =>
    rw [reader_list, hi] at hfound
    simp only [harray, if_true] at hfound
    cases hfound
    cases hdead _ rfl

/-- **A search for `get` goes on** unless it answers the key, or an int that a text spells. -/
theorem passes_duck_iff (hk : k.InOrder) : Search.Passes (·.isAlive r) (reader r c key .duck) k ↔
    ¬k.HasGet r c key ∧ ∀ n, (k.findMethod r c (.ofArgs "get" [key])).1 = .ok none →
      key.toString?.bind Number.readInt32 = some n → ¬k.HasGet r c (.int n) := by
  unfold Search.Passes
  rw [reader_duck hk]
  cases hget : (k.findMethod r c (.ofArgs "get" [key])).1 with
  | error e => simp [Introspector.HasGet, hget, Except.bind]
  | ok found =>
    cases found with
    | some m => simp [Introspector.HasGet, hget, Except.bind, Reader.isAlive, ReadRoute.declaring?]
    | none =>
      have hnone : ¬k.HasGet r c key := fun h => by
        obtain ⟨m, hm, -⟩ := h none hget
        cases hm
      simp only [Except.bind, hnone, not_false_eq_true, true_and, forall_const]
      cases key.toString?.bind Number.readInt32 with
      | none => simp
      | some n =>
        simp only [Option.some.injEq, forall_eq']
        exact goesOn_iff fun _ => rfl

/-! ## What a search in the order of brackets finds -/

/-- A resolver finds a reader that is alive. -/
def Finds (r : Registry) (c : ClassId) (key : Value) (k : Introspector) (b : Reader) (x : Resolver) : Prop :=
  (reader r c key x k).1 = .ok (some b) ∧ b.isAlive r = true

/-- A search in the order of brackets ends with a reader: one resolver finds it, and those before pass. Maps are
looked at first, and under the strategy for maps nothing else is. -/
def BracketFinds (σ : Strategy) (r : Registry) (c : ClassId) (key : Value) (k : Introspector) (b : Reader) : Prop :=
  let passes (x : Resolver) := Search.Passes (·.isAlive r) (reader r c key x) k
  let finds := Finds r c key k b
  finds .map ∨ (¬(σ = .map ∧ r.isAssignable c .map = true) ∧ passes .map ∧
    (finds .list ∨ (passes .list ∧ (finds .duck ∨ (passes .duck ∧
      (finds .property ∨ (passes .property ∧ finds .field)))))))

theorem firstReader_bracket_iff (hk : k.InOrder) (σ : Strategy) {target : Value} (hnull : target.isNull = false) :
    (firstReader (σ.resolvers r target.cls .bracket) r target key k).1 = .ok (some b) ↔
      BracketFinds σ r target.cls key k b := by
  have hfixed : ∀ (order : List Resolver), ∀ S ∈ order.map (reader r target.cls key), Search.Fixed r S := by
    intro order S hS
    obtain ⟨x, -, rfl⟩ := List.mem_map.1 hS
    exact fixed_reader _ key x
  have hcons : ∀ (x : Resolver) (order : List Resolver),
      (Search.firstAlive (·.isAlive r) ((x :: order).map (reader r target.cls key)) k).1 = .ok (some b) ↔
        Finds r target.cls key k b x ∨ (Search.Passes (·.isAlive r) (reader r target.cls key x) k ∧
          (Search.firstAlive (·.isAlive r) (order.map (reader r target.cls key)) k).1 = .ok (some b)) :=
    fun x order => Search.firstAlive_cons_iff (fixed_reader _ key x) (hfixed order) hk
  have hnil : ¬(Search.firstAlive (·.isAlive r) (([] : List Resolver).map (reader r target.cls key)) k).1 =
      .ok (some b) := fun h => by cases h
  unfold firstReader Strategy.resolvers BracketFinds
  rw [hnull]
  simp only [Bool.false_eq_true, if_false]
  split
  · rename_i hmap
    rw [hcons]
    simp only [hnil, hmap, and_false, or_false, and_self, not_true, false_and]
  · rename_i hmap
    simp only [AccessStyle.resolvers, hcons, hnil, hmap, and_false, or_false, not_false_eq_true, true_and]

theorem finds_map_iff : Finds r c key k b .map ↔ r.isAssignable c .map = true ∧
    ∃ m, (k.findMethod r c (.ofArgs "get" [key])).1 = .ok (some m) ∧ r.isAlive m.declaring = true ∧
      b = ⟨c, .map m key⟩ := by
  unfold Finds
  rw [reader_map]
  by_cases hmap : r.isAssignable c .map = true
  · rw [if_pos hmap, map_eq_found_iff]
    constructor
    · rintro ⟨⟨m, hget, rfl⟩, halive⟩
      exact ⟨hmap, m, hget, halive, rfl⟩
    · rintro ⟨-, m, hget, halive, rfl⟩
      exact ⟨⟨m, hget, rfl⟩, halive⟩
  · simp [hmap]

theorem finds_list_iff : Finds r c key k b .list ↔
    ∃ source i, key.toIndex? = some i ∧ k.Indexes r c source ∧ b = ⟨c, .list source i⟩ := by
  unfold Finds
  rw [reader_list]
  cases hi : key.toIndex? with
  | none => simp
  | some i =>
    simp only
    constructor
    · rintro ⟨hfound, halive⟩
      by_cases harray : r.isArray c = true
      · rw [if_pos harray] at hfound
        cases hfound
        exact ⟨.array, i, rfl, harray, rfl⟩
      · rw [if_neg harray] at hfound
        by_cases hlist : r.isAssignable c .list = true
        · rw [if_pos hlist, map_eq_found_iff] at hfound
          obtain ⟨m, hget, rfl⟩ := hfound
          -- indices are ints, so `get` is looked for with the signature that `Indexes` names
          exact ⟨.list m, i, rfl, ⟨harray, hlist, hget, halive⟩, rfl⟩
        · rw [if_neg hlist] at hfound
          cases hfound
    · rintro ⟨source, i', hi', hindexes, rfl⟩
      cases hi'
      cases source with
      | array => exact ⟨if_pos hindexes, rfl⟩
      | list m =>
        obtain ⟨harray, hlist, hget, halive⟩ := hindexes
        rw [if_neg harray, if_pos hlist, map_eq_found_iff]
        exact ⟨⟨m, hget, rfl⟩, halive⟩

theorem finds_duck (hk : k.InOrder) (h : Finds r c key k b .duck) : ∃ m argument, b = ⟨c, .duck m key argument⟩ := by
  obtain ⟨hfound, -⟩ := h
  rw [reader_duck hk] at hfound
  cases hget : (k.findMethod r c (.ofArgs "get" [key])).1 with
  | error e =>
    rw [hget] at hfound
    cases hfound
  | ok found =>
    rw [hget] at hfound
    cases found with
    | some m =>
      cases hfound
      exact ⟨m, key, rfl⟩
    | none =>
      simp only [Except.bind] at hfound
      split at hfound
      · cases hfound
      · rename_i n hn
        obtain ⟨m, -, rfl⟩ := map_eq_found_iff.1 hfound
        exact ⟨m, .int n, rfl⟩

end Resolver

end MemberAccess
