import MemberAccess.Containers

/-!
# What host code does to the heap

Reading and writing an array, a list or a map looks at one place of the heap and changes at most that one. When it
fails, it has changed nothing.

* `bind_apply`: one run after the other.
* `ArrayRef.get_apply`, `ArrayRef.set_apply`: the elements of an array.
* `Heap.Puts`, `ArrayRef.set_puts`: a write puts the one element, or does nothing.
* `Containers.listGet_apply`, `listSet_apply`, `mapGet_apply`, `mapPut_apply`: lists and maps.
* `Heap.elements_setElements`, `Heap.state_setState`: what is found where something has been put.
-/

namespace MemberAccess

variable {h : Heap} {items : List Value} {entries : List (Value × Value)} {o : ObjectRef} {a : ArrayRef}

/-- A run over a state that may fail, and then another one; a failure ends it. -/
theorem bind_apply {α β ε σ : Type} (s : ExceptT ε (StateM σ) α) (f : α → ExceptT ε (StateM σ) β) (k : σ) :
    (s >>= f) k = match s k with
      | (.ok a, k') => f a k'
      | (.error e, k') => (.error e, k') := by
  simp only [bind, ExceptT.bind, ExceptT.mk, StateT.bind]
  rcases s k with ⟨_ | _, _⟩ <;> rfl

/-! ## Places -/

theorem Heap.elements_setElements (ha : a.address < h.arrays.length) (items : List Value) :
    (h.setElements a items).elements a = items := by
  unfold Heap.elements Heap.setElements
  simp [ha]

/-- An array that has elements is there. -/
theorem Heap.address_lt_of_elements {n : Nat} (hn : n < (h.elements a).length) : a.address < h.arrays.length := by
  rcases Nat.lt_or_ge a.address h.arrays.length with hlt | hge
  · exact hlt
  · have hnone : h.arrays[a.address]? = none := List.getElem?_eq_none hge
    unfold Heap.elements at hn
    rw [hnone] at hn
    exact absurd hn (Nat.not_lt_zero n)

/-- An object with a state of its own is there. -/
theorem Heap.address_lt_of_state (hstate : h.state o ≠ .bare) : o.address < h.objects.length := by
  rcases Nat.lt_or_ge o.address h.objects.length with hlt | hge
  · exact hlt
  · have hnone : h.objects[o.address]? = none := List.getElem?_eq_none hge
    unfold Heap.state at hstate
    rw [hnone] at hstate
    exact absurd rfl hstate

theorem Heap.state_setState (ho : o.address < h.objects.length) (state : ObjectState) :
    (h.setState o state).state o = state := by
  unfold Heap.state Heap.setState
  simp [ho]

/-! ## Arrays -/

theorem checkIndex_cases (i : Int32) (n : Nat) :
    (0 ≤ i.toInt ∧ i.toInt.toNat < n ∧ checkIndex i n = .ok i.toInt.toNat) ∨
      (¬(0 ≤ i.toInt ∧ i.toInt.toNat < n) ∧ checkIndex i n = .error (.indexOutOfBounds i.toInt n)) := by
  unfold checkIndex
  by_cases hinside : 0 ≤ i.toInt ∧ i.toInt.toNat < n
  · exact .inl ⟨hinside.1, hinside.2, if_pos hinside⟩
  · exact .inr ⟨hinside, if_neg hinside⟩

/-- **Reading an element** leaves the heap alone. -/
theorem ArrayRef.get_apply (a : ArrayRef) (i : Int32) (h : Heap) : a.get i h =
    match checkIndex i (h.elements a).length with
    | .ok n => (.ok ((h.elements a)[n]?.getD .null), h)
    | .error f => (.error (.fault f), h) := by
  change (Host.ofExcept (checkIndex i (h.elements a).length) >>= fun n =>
    (pure ((h.elements a)[n]?.getD .null) : Host Value)) h = _
  cases checkIndex i (h.elements a).length <;> rfl

/-- **Writing an element** checks the kind of the value and then the index, and changes nothing else. -/
theorem ArrayRef.set_apply (a : ArrayRef) (i : Int32) (v : Value) (h : Heap) : a.set i v h =
    match accepts a.component v, checkIndex i (h.elements a).length with
    | .ok _, .ok n => (.ok (), h.setElements a ((h.elements a).set n v))
    | .ok _, .error f => (.error (.fault f), h)
    | .error f, _ => (.error (.fault f), h) := by
  unfold ArrayRef.set
  cases accepts a.component v with
  | error f => rfl
  | ok =>
    change (Host.ofExcept (checkIndex i (h.elements a).length) >>= fun n =>
      (MonadState.set (h.setElements a ((h.elements a).set n v)) : Host Unit)) h = _
    cases checkIndex i (h.elements a).length <;> rfl

/-- Whether a value may be an element of arrays of a component: a primitive one takes its own kind, everything else
any value. -/
def Ty.Admits (component : Ty) (v : Value) : Prop := ∀ p, component = .primitive p → v.primitive? = some p

theorem ArrayRef.accepts_iff {component : Ty} {v : Value} : accepts component v = .ok () ↔ component.Admits v := by
  cases component with
  | primitive p =>
    simp only [accepts, Ty.Admits, Ty.primitive.injEq, forall_eq']
    by_cases hkind : v.primitive? = some p <;> simp [hkind]
  | ofClass c | null => simp [accepts, Ty.Admits]

/-- What comes of an attempt to put a value at an index of an array. It is `done` exactly if the array takes the value
and has the index, and then that element is the value, and no other one has changed; otherwise nothing has. -/
structure Heap.Puts (h : Heap) (a : ArrayRef) (i : Int32) (v : Value) (done : Prop) (h' : Heap) : Prop where
  done_iff : done ↔ a.component.Admits v ∧ 0 ≤ i.toInt ∧ i.toInt.toNat < (h.elements a).length
  element : done → h'.elements a = (h.elements a).set i.toInt.toNat v
  others : ∀ b, b.address ≠ a.address → h'.elements b = h.elements b
  count : h'.arrays.length = h.arrays.length
  undone : ¬done → h' = h

theorem Heap.Puts.congr {i : Int32} {v : Value} {done done' : Prop} {h' : Heap} (hputs : h.Puts a i v done h')
    (hiff : done' ↔ done) : h.Puts a i v done' h' := by
  rwa [propext hiff]

/-- **Writing an element changes that element or nothing.** -/
theorem ArrayRef.set_puts (a : ArrayRef) (i : Int32) (v : Value) (h : Heap) :
    h.Puts a i v ((a.set i v h).1 = .ok ()) (a.set i v h).2 := by
  rw [set_apply]
  rcases checkIndex_cases i (h.elements a).length with ⟨hlow, hhigh, hcheck⟩ | ⟨hout, hcheck⟩ <;> rw [hcheck]
  · cases haccepts : accepts a.component v with
    | ok =>
      have hthere : a.address < h.arrays.length := Heap.address_lt_of_elements hhigh
      exact {
        done_iff := iff_of_true rfl ⟨accepts_iff.1 haccepts, hlow, hhigh⟩
        element := fun _ => Heap.elements_setElements hthere _
        others := fun b hb => h.elements_setElements_ne a b _ (Ne.symm hb)
        count := List.length_set
        undone := fun hnot => absurd rfl hnot }
    | error f =>
      refine ⟨iff_of_false nofun ?_, nofun, fun _ _ => rfl, rfl, fun _ => rfl⟩
      rintro ⟨hadmits, -⟩
      rw [accepts_iff.2 hadmits] at haccepts
      cases haccepts
  · -- the kind of the value does not matter any more
    cases accepts a.component v with
    | ok => exact ⟨iff_of_false nofun fun h => hout h.2, nofun, fun _ _ => rfl, rfl, fun _ => rfl⟩
    | error f => exact ⟨iff_of_false nofun fun h => hout h.2, nofun, fun _ _ => rfl, rfl, fun _ => rfl⟩

/-! ## Lists and maps -/

namespace Containers

theorem asList_apply (hstate : h.state o = .list items) : (Value.object o).asList h = (.ok (o, items), h) := by
  have hget : (get : Host Heap) h = (.ok h, h) := rfl
  unfold Value.asList Value.stateAs
  simp only
  rw [bind_apply, hget]
  simp only [hstate]
  rfl

theorem asMap_apply (hstate : h.state o = .map entries) : (Value.object o).asMap h = (.ok (o, entries), h) := by
  have hget : (get : Host Heap) h = (.ok h, h) := rfl
  unfold Value.asMap Value.stateAs
  simp only
  rw [bind_apply, hget]
  simp only [hstate]
  rfl

theorem listGet_apply (hstate : h.state o = .list items) (i : Int32) : listGet (.object o) i h =
    match checkIndex i items.length with
    | .ok n => (.ok (items[n]?.getD .null), h)
    | .error f => (.error (.fault f), h) := by
  unfold listGet
  rw [bind_apply, asList_apply hstate]
  simp only
  cases checkIndex i items.length <;> rfl

theorem listSet_apply (hstate : h.state o = .list items) (i : Int32) (v : Value) : listSet (.object o) i v h =
    match checkIndex i items.length with
    | .ok n => (.ok (items[n]?.getD .null), h.setState o (.list (items.set n v)))
    | .error f => (.error (.fault f), h) := by
  unfold listSet
  rw [bind_apply, asList_apply hstate]
  simp only
  cases checkIndex i items.length <;> rfl

theorem mapGet_apply (hstate : h.state o = .map entries) (key : Value) :
    mapGet (.object o) key h = (.ok ((Assoc.get? key entries).getD .null), h) := by
  unfold mapGet
  rw [bind_apply, asMap_apply hstate]
  rfl

theorem mapPut_apply (hstate : h.state o = .map entries) (key v : Value) : mapPut (.object o) key v h =
    (.ok ((Assoc.get? key entries).getD .null), h.setState o (.map (Assoc.put key v entries))) := by
  unfold mapPut
  rw [bind_apply, asMap_apply hstate]
  rfl

end Containers

end MemberAccess
