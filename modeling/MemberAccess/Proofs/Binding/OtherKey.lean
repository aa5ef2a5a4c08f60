import MemberAccess.Proofs.Binding.Bracket
import MemberAccess.Proofs.Binding.Property

/-!
# Reading with another key

A reader that was found for one key may be used with another one: through a map with any key of the same class,
through a list with any number, through an accessor or a field with a key of the same name. A search for the other
key, in the order of brackets, need not come to the same access, because `get` is looked for with the very type of
the key.

* `Reader.Shadowed`: a search for the other key ends before it comes to the reader.
* `ReadRoute.Named`: accessors and fields, and what a search for them finds.
* `Resolver.replay_map`, `replay_list_iff`, `replay_named_iff`: one family after the other.
* `Resolver.replay_agrees_iff`: a reader that is used with another key makes the access of the one that a search for
  that key finds, unless it is shadowed.
-/

namespace MemberAccess

variable {r : Registry} {c : ClassId} {k : Introspector} {key key' : Value} {b : Reader}

/-- What comes before accessors and fields takes a key: the elements of an array, or the method `get`. -/
def Introspector.Takes (k : Introspector) (r : Registry) (c : ClassId) (key : Value) : Prop :=
  (r.isArray c = true ∧ key.toIndex?.isSome = true) ∨ k.HasGet r c key

/-- A reader that was found for one key, and applies to another one, is not what a search for that one comes to:
a list that is a map as well takes other keys than ints as a map, and an accessor or a field comes after `get`. -/
def Reader.Shadowed (b : Reader) (k : Introspector) (r : Registry) (key key' : Value) : Prop :=
  match b.route with
  | .map .. | .duck .. => False
  | .list .. => r.isAssignable b.cls .map = true ∧ (∀ n, key' ≠ .int n) ∧ k.HasGet r b.cls key'
  | .getter .. | .flag .. | .field _ => key' ≠ key ∧ k.Takes r b.cls key'

/-- Arrays are no maps. -/
theorem Registry.isAssignable_map_of_isArray (hp : r.Proper) (hinit : initial.GrowsTo r) (hmade : r.Made)
    (h : r.isArray c = true) : r.isAssignable c .map = false := by
  obtain ⟨d, hd, harray⟩ := exists_array h
  obtain ⟨map, hmap, hplain⟩ : ∃ map, initial.class? .map = some map ∧ map.isArray = false := ⟨_, rfl, rfl⟩
  refine Bool.eq_false_iff.2 fun hassignable => ?_
  cases eq_object_of_isAssignable hinit hp hmade hd harray (hinit.class?_some hmap) hplain hassignable

/-! ## Accessors and fields -/

/-- A key with a name is that text, or an int. -/
theorem Value.eq_of_propertyName? {name : String} (h : key.propertyName? = some name) :
    key = .string name ∨ ∃ n, key = .int n := by
  cases key with
  | string s => exact .inl (congrArg Value.string (Option.some.inj h))
  | int n => exact .inr ⟨n, rfl⟩
  | _ => cases h

/-- An accessor or a field of the name that a key stands for. -/
def ReadRoute.Named (key : Value) : ReadRoute → Prop
  | .getter _ name | .flag _ name => key.propertyName? = some name
  | .field f => key.propertyName? = some f.name
  | .map .. | .list .. | .duck .. => False

/-- What is looked for by its name is the same for keys of one name. -/
theorem Reader.search_of_name (hname : key'.propertyName? = key.propertyName?) {family : ReadFamily}
    (hfamily : family = .getter ∨ family = .flag ∨ family = .field) :
    search r c key' family = search r c key family := by
  rcases hfamily with rfl | rfl | rfl <;> simp only [search, searchRoute, searchAccessor, hname]

/-- What an accessor or a field is found by is the name that the key stands for. -/
theorem ReadRoute.Found.named {I : Introspector → Prop} {route : ReadRoute} (h : route.Found I r c key)
    (hfamily : route.family = .getter ∨ route.family = .flag ∨ route.family = .field) : route.Named key := by
  cases h with
  | field hname h => exact hname.trans (congrArg some h.name.symm)
  | getter hname | flag hname => exact hname
  | map | list | duck => simp [family] at hfamily

theorem Reader.named_search {family : ReadFamily} (hfamily : family = .getter ∨ family = .flag ∨ family = .field) :
    (search r c key family).Ensures (fun _ => True) r (fun found => ∀ b ∈ found, b.route.Named key) := by
  apply (found_search (Introspector.keptByQueries_true r) key family).imp
  intro found hfound b hb
  obtain ⟨hb, -, hroute⟩ := hfound b hb
  exact hroute.named (by rwa [← hb] at hfamily)

namespace ReadRoute

variable {route route' : ReadRoute} {t : Value} {a : Access}

/-- An accessor or a field that applies to another key makes the same access, and the keys have one name. -/
theorem Named.of_replay? (h : route.Named key) (ha : route.replay? t key' = some a) :
    key'.propertyName? = key.propertyName? ∧ a = route.access t := by
  cases route with
  | field | getter | flag =>
    simp only [replay?] at ha
    split at ha
    · rename_i hname
      exact ⟨hname.trans h.symm, (Option.some.inj ha).symm⟩
    · cases ha
  | map | list | duck => exact h.elim

/-- Accessors and fields are given no key, and everything else is. -/
theorem Named.access_ne (h : route.Named key) (h' : ∀ key, ¬route'.Named key) : route'.access t ≠ route.access t := by
  intro ha
  cases route' with
  | field f => exact h' (.string f.name) rfl
  | getter m name | flag m name => exact h' (.string name) rfl
  | map | duck =>
    cases route with
    | getter | flag | field => cases ha
    | map | list | duck => exact h
  | list source =>
    cases route with
    | getter | flag | field => cases source <;> cases ha
    | map | list | duck => exact h

end ReadRoute

namespace Resolver

theorem named_reader {x : Resolver} (hx : x = .property ∨ x = .field) :
    (reader r c key x).Ensures (fun _ => True) r (fun found => ∀ b ∈ found, b.route.Named key) := by
  rcases hx with rfl | rfl
  · apply (Reader.named_search (.inl rfl)).bind
    intro found hfound
    cases found with
    | some b => exact Search.ensures_pure hfound
    | none => exact Reader.named_search (.inr (.inl rfl))
  · exact Reader.named_search (.inr (.inr rfl))

theorem reader_of_name (hname : key'.propertyName? = key.propertyName?) {x : Resolver}
    (hx : x = .property ∨ x = .field) : reader r c key' x = reader r c key x := by
  rcases hx with rfl | rfl
  · simp only [reader, Reader.search_of_name hname (.inl rfl), Reader.search_of_name hname (.inr (.inl rfl))]
  · exact Reader.search_of_name hname (.inr (.inr rfl))

/-! ## One family after the other -/

variable {σ : Strategy} {t : Value} {a : Access}

/-- **A map** is read with every key of the class of the one that it was found for. -/
theorem replay_map (h : Finds r c key k b .map) (ha : b.route.replay? t key' = some a) :
    ∃ b', BracketFinds σ r c key' k b' ∧ b'.access t = a := by
  obtain ⟨hmap, m, hget, halive, rfl⟩ := finds_map_iff.1 h
  simp only [ReadRoute.replay?] at ha
  split at ha
  · rename_i htype
    cases ha
    have hget' : (k.findMethod r c (.ofArgs "get" [key'])).1 = .ok (some m) := by
      simpa only [Signature.ofArgs, List.map_cons, List.map_nil, htype] using hget
    exact ⟨⟨c, .map m key'⟩, .inl (finds_map_iff.2 ⟨hmap, m, hget', halive, rfl⟩), rfl⟩
  · cases ha

/-- **A list** is read with every index, unless it is a map that takes the key. -/
theorem replay_list_iff (hp : r.Proper) (hinit : Registry.initial.GrowsTo r) (hmade : r.Made)
    (hstrategy : ¬(σ = .map ∧ r.isAssignable c .map = true)) (h : Finds r c key k b .list)
    (ha : b.route.replay? t key' = some a) :
    (∃ b', BracketFinds σ r c key' k b' ∧ b'.access t = a) ↔
      ¬(r.isAssignable c .map = true ∧ (∀ n, key' ≠ .int n) ∧ k.HasGet r c key') := by
  obtain ⟨source, i, -, hindexes, rfl⟩ := finds_list_iff.1 h
  obtain ⟨j, hj, rfl⟩ := Option.map_eq_some_iff.1 ha
  by_cases htaken : r.isAssignable c .map = true ∧ k.HasGet r c key'
  · -- the class is a map that takes the key: it is no array
    obtain ⟨hmap, hget⟩ := htaken
    have hpasses : ¬Search.Passes (·.isAlive r) (reader r c key' .map) k := fun h => passes_map_iff.1 h ⟨hmap, hget⟩
    cases source with
    | array =>
      rw [Registry.isAssignable_map_of_isArray hp hinit hmade hindexes] at hmap
      cases hmap
    | list m =>
      obtain ⟨-, -, hmethod, halive⟩ := hindexes
      by_cases hint : ∃ n, key' = .int n
      · -- an int is looked for among maps as it is among lists
        obtain ⟨n, rfl⟩ := hint
        cases hj
        exact iff_of_true ⟨⟨c, .map m (.int j)⟩, .inl (finds_map_iff.2 ⟨hmap, m, hmethod, halive, rfl⟩), rfl⟩
          fun h => h.2.1 j rfl
      · push Not at hint
        refine iff_of_false ?_ fun h => h ⟨hmap, hint, hget⟩
        rintro ⟨b', hb', haccess⟩
        rcases hb' with hfinds | ⟨-, hpasses', -⟩
        · obtain ⟨-, m', -, -, rfl⟩ := finds_map_iff.1 hfinds
          -- a map is given the key itself
          cases haccess
          exact hint j rfl
        · exact hpasses hpasses'
  · refine iff_of_true ⟨⟨c, .list source j⟩, ?_, rfl⟩ fun h => htaken ⟨h.1, h.2.2⟩
    exact .inr ⟨hstrategy, passes_map_iff.2 htaken, .inl (finds_list_iff.2 ⟨source, j, hj, hindexes, rfl⟩)⟩

/-- What stands before accessors and fields passes for a key that it does not take, when `get` does not answer
another key of the same name. -/
theorem passes_of_not_takes (hk : k.InOrder) {name : String} (hkey : key.propertyName? = some name)
    (hkey' : key'.propertyName? = some name) (hne : key' ≠ key) (hget : ¬k.HasGet r c key)
    (htakes : ¬k.Takes r c key') :
    Search.Passes (·.isAlive r) (reader r c key' .map) k ∧ Search.Passes (·.isAlive r) (reader r c key' .list) k ∧
      Search.Passes (·.isAlive r) (reader r c key' .duck) k := by
  have hget' : ¬k.HasGet r c key' := fun h => htakes (.inr h)
  have hmap := passes_map_iff.2 fun h => hget' h.2
  rcases Value.eq_of_propertyName? hkey' with rfl | ⟨n, rfl⟩
  · -- no text is an index, and the other key of the name is an int: `get` takes none
    refine ⟨hmap, passes_list_of_none rfl, (passes_duck_iff hk).2 ⟨hget', fun n _ _ hint => ?_⟩⟩
    rcases Value.eq_of_propertyName? hkey with rfl | ⟨n', rfl⟩
    · exact hne rfl
    · exact hget ((Introspector.hasGet_of_type rfl).1 hint)
  · have harray : r.isArray c = false := Bool.eq_false_iff.2 fun h => htakes (.inl ⟨h, rfl⟩)
    exact ⟨hmap, passes_list_int harray hget', (passes_duck_iff hk).2 ⟨hget', fun _ _ hn => by cases hn⟩⟩

/-- **An accessor or a field** is read with every key of its name, unless something that stands before it takes the
key. -/
theorem replay_named_iff (hk : k.InOrder) (hstrategy : ¬(σ = .map ∧ r.isAssignable c .map = true))
    (hmap : Search.Passes (·.isAlive r) (reader r c key .map) k)
    (hlist : Search.Passes (·.isAlive r) (reader r c key .list) k)
    (hduck : Search.Passes (·.isAlive r) (reader r c key .duck) k)
    (h : Finds r c key k b .property ∨
      (Search.Passes (·.isAlive r) (reader r c key .property) k ∧ Finds r c key k b .field))
    (hnamed : b.route.Named key) (ha : b.route.replay? t key' = some a) :
    (∃ b', BracketFinds σ r c key' k b' ∧ b'.access t = a) ↔ ¬(key' ≠ key ∧ k.Takes r c key') := by
  obtain ⟨hname, rfl⟩ := hnamed.of_replay? ha
  -- the reader is found again, when a search comes as far
  have hagain : Search.Passes (·.isAlive r) (reader r c key' .map) k →
      Search.Passes (·.isAlive r) (reader r c key' .list) k →
      Search.Passes (·.isAlive r) (reader r c key' .duck) k → BracketFinds σ r c key' k b := by
    intro hmap' hlist' hduck'
    refine .inr ⟨hstrategy, hmap', .inr ⟨hlist', .inr ⟨hduck', ?_⟩⟩⟩
    simpa only [Finds, reader_of_name hname (.inl rfl), reader_of_name hname (.inr rfl)] using h
  by_cases hne : key' = key
  · subst hne
    exact iff_of_true ⟨b, hagain hmap hlist hduck, rfl⟩ fun h => h.1 rfl
  · constructor
    · rintro ⟨b', hb', haccess⟩ ⟨-, htakes⟩
      -- what is found comes before accessors and fields, and is given the key
      have hkeyed : ∀ {b' : Reader}, b'.access t = b.route.access t → ¬∀ key, ¬b'.route.Named key :=
        fun haccess h' => hnamed.access_ne h' haccess
      rcases hb' with hfinds | ⟨-, -, hfinds | ⟨hlist', hfinds | ⟨hduck', -⟩⟩⟩
      · obtain ⟨-, m, -, -, rfl⟩ := finds_map_iff.1 hfinds
        exact hkeyed haccess fun _ h => h
      · obtain ⟨source, i, -, -, rfl⟩ := finds_list_iff.1 hfinds
        exact hkeyed haccess fun _ h => h
      · obtain ⟨m, argument, rfl⟩ := finds_duck hk hfinds
        exact hkeyed haccess fun _ h => h
      · rcases htakes with ⟨harray, hindex⟩ | hget
        · rw [isArray_of_passes_list hlist' hindex] at harray
          cases harray
        · exact ((passes_duck_iff hk).1 hduck').1 hget
    · intro htakes
      obtain ⟨name, hkey⟩ : ∃ name, key.propertyName? = some name := by
        cases hroute : b.route <;> rw [hroute] at hnamed <;> first | exact ⟨_, hnamed⟩ | exact hnamed.elim
      obtain ⟨hmap', hlist', hduck'⟩ := passes_of_not_takes hk hkey (hname.trans hkey) hne
        ((passes_duck_iff hk).1 hduck).1 fun h => htakes ⟨hne, h⟩
      exact ⟨b, hagain hmap' hlist' hduck', rfl⟩

/-- **A reader that is used with another key** makes the access of the one that a search for that key finds, unless
it is shadowed. -/
theorem replay_agrees_iff (hk : k.InOrder) (hp : r.Proper) (hinit : Registry.initial.GrowsTo r) (hmade : r.Made)
    (h : BracketFinds σ r c key k b) (ha : b.route.replay? t key' = some a) :
    (∃ b', BracketFinds σ r c key' k b' ∧ b'.access t = a) ↔ ¬b.Shadowed k r key key' := by
  have hnamed : ∀ {x}, x = .property ∨ x = .field → Finds r c key k b x → b.cls = c ∧ b.route.Named key :=
    fun hx hfinds => ⟨((found_reader (Introspector.keptByQueries_true r) key _ k trivial).2.1 _ hfinds.1 b rfl).1,
      (named_reader hx k trivial).2.1 _ hfinds.1 b rfl⟩
  rcases h with hfinds | ⟨hstrategy, hmap, hfinds | ⟨hlist, hfinds | ⟨hduck, hlast⟩⟩⟩
  · refine iff_of_true (replay_map hfinds ha) ?_
    obtain ⟨-, m, -, -, rfl⟩ := finds_map_iff.1 hfinds
    exact id
  · rw [replay_list_iff hp hinit hmade hstrategy hfinds ha]
    obtain ⟨source, i, -, -, rfl⟩ := finds_list_iff.1 hfinds
    rfl
  · have hfound := hfinds
    obtain ⟨m, argument, rfl⟩ := finds_duck hk hfinds
    simp only [ReadRoute.replay?] at ha
    split at ha
    · rename_i hsame
      cases ha
      subst hsame
      exact iff_of_true ⟨_, .inr ⟨hstrategy, hmap, .inr ⟨hlist, .inl hfound⟩⟩, rfl⟩ id
    · cases ha
  · obtain ⟨hcls, hroute⟩ : b.cls = c ∧ b.route.Named key := by
      rcases hlast with hfinds | ⟨-, hfinds⟩
      · exact hnamed (.inl rfl) hfinds
      · exact hnamed (.inr rfl) hfinds
    rw [replay_named_iff hk hstrategy hmap hlist hduck hlast hroute ha]
    unfold Reader.Shadowed
    rw [hcls]
    cases hb : b.route <;> rw [hb] at hroute <;> first | rfl | exact hroute.elim

end Resolver

end MemberAccess
