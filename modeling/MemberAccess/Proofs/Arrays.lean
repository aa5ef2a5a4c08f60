import Mathlib.Logic.Relation
import MemberAccess.Proofs.Binding.Member
import MemberAccess.Proofs.Heap
import MemberAccess.Proofs.Registry.Store

/-!
# Arrays

A reference to an array comes into being when the array is made, and carries its class and its component. Host code
has no other way to arrays than their interface: it makes them, and reads and writes their elements. So every array
keeps its length, and a primitive one keeps its kind.

* `Arrays.Moves`: what host code may do at a time, and `Arrays.Runs`: what accesses do, one after the other.
* `Arrays.Sound`: what holds of arrays; `sound_moves`, `Runs.moves`: host code and accesses keep it.
* `Arrays.KeepsTo`: arrays that are still there, as long as they were.
* `Arrays.sound_newArray`: the same for an array that is made.
-/

namespace MemberAccess

open Relation

variable {r r' : Registry} {h h' : Heap} {t : Ty} {items : List Value} {a b : ArrayRef}

/-- Elements that have been accepted are admitted. -/
theorem ArrayRef.admits_of_accepts_all (hitems : items.forM (accepts t) = .ok ()) : ∀ v ∈ items, t.Admits v := by
  induction items with
  | nil => exact fun v hv => by cases hv
  | cons v rest ih =>
    change (accepts t v >>= fun _ => rest.forM (accepts t)) = .ok () at hitems
    cases haccepts : accepts t v with
    | error f =>
      rw [haccepts] at hitems
      cases hitems
    | ok =>
      rw [haccepts] at hitems
      intro w hw
      rcases List.mem_cons.1 hw with rfl | hw
      · exact accepts_iff.1 haccepts
      · exact ih hitems w hw

/-- The access to an element of an array writes the element, and answers the value. -/
theorem Access.host_writeElement (a : ArrayRef) (i : Int32) (v : Value) (h : Heap) :
    (Access.writeElement (.array a) i v).host h = ((a.set i v h).1.map fun _ => v, (a.set i v h).2) := by
  have hhost : (Access.writeElement (.array a) i v).host = (do a.set i v; pure v) := rfl
  rw [hhost, bind_apply]
  rcases a.set i v h with ⟨answer, h'⟩
  cases answer <;> rfl

theorem Access.run_writeElement (a : ArrayRef) (i : Int32) (v : Value) (h : Heap) :
    ((Access.writeElement (.array a) i v).run h).1 = .ok v ↔ (a.set i v h).1 = .ok () := by
  have hrun : ((Access.writeElement (.array a) i v).run h).1 =
      ((Access.writeElement (.array a) i v).host h).1.mapError (Access.writeElement (.array a) i v).error := rfl
  rw [hrun, host_writeElement]
  cases (a.set i v h).1 <;> simp [Except.map, Except.mapError]

/-- Tried, the access is done in full: an element does not refuse. -/
theorem Access.attempt_writeElement (a : ArrayRef) (i : Int32) (v : Value) (h : Heap) :
    (((Access.writeElement (.array a) i v).attempt h).1 = .ok (.done v) ↔ (a.set i v h).1 = .ok ()) ∧
      ((Access.writeElement (.array a) i v).attempt h).2 = (a.set i v h).2 := by
  unfold attempt
  rw [host_writeElement]
  cases (a.set i v h).1 <;> simp [Except.map, mayRefuse]

/-- A writer for elements that is used on an array writes the element that it is bound to. -/
theorem Writer.invoke_element {w : Writer} {i : Int32} (hroute : w.route = .list .array i) (a : ArrayRef) (v : Value) :
    w.invoke (.array a) v = (Access.writeElement (.array a) i v).run := by
  unfold Writer.invoke Writer.access
  rw [hroute]
  rfl

/-- One that is tried writes the element that the property stands for, if the array is of its class. -/
theorem Writer.replay?_element {w : Writer} {i : Int32} (hroute : w.route = .list .array i) (a : ArrayRef)
    (key v : Value) : w.replay? (.array a) key v = if a.cls = w.cls then
      key.toIndex?.map fun j => .writeElement (.array a) j v else none := by
  unfold Writer.replay?
  rw [hroute]
  simp only [Value.cls, Value.isNull, Bool.false_eq_true, false_implies, and_true]
  rfl

/-! ## What is done to arrays -/

/-- A heap, and the arrays that have been made in it. -/
structure Arrays where
  made : List ArrayRef
  heap : Heap

namespace Arrays

/-- What host code may do at a time: to objects whatever it likes, and to arrays what their interface offers, for
elements of arrays that have been made, and for new arrays of classes that are there. -/
inductive Moves (r : Registry) : Arrays → Arrays → Prop
  | objects {st} (objects : List ObjectState) : Moves r st { st with heap := { st.heap with objects := objects } }
  | set {st a} (ha : a ∈ st.made) (i : Int32) (v : Value) : Moves r st { st with heap := (a.set i v st.heap).2 }
  | newArray {st t items a heap} (hok : r.newArray st.heap t items = .ok (a, r, heap)) :
      Moves r st ⟨st.made ++ [a], heap⟩

/-- What accesses do, one after the other: those to elements what they say, to arrays that have been made, and those
to members what host code may do. -/
inductive Runs (r : Registry) : List Access → Arrays → Arrays → Prop
  | nil {st} : Runs r [] st st
  | element {x rest st st'} (helement : x.member? = none)
      (htarget : ∀ a i v, x = .writeElement (.array a) i v → a ∈ st.made)
      (hrest : Runs r rest { st with heap := (x.host st.heap).2 } st') : Runs r (x :: rest) st st'
  | member {x rest st made st'} (hmember : x.member? ≠ none)
      (hmoves : ReflTransGen (Moves r) st ⟨made, (x.host st.heap).2⟩)
      (hrest : Runs r rest ⟨made, (x.host st.heap).2⟩ st') : Runs r (x :: rest) st st'

variable {st st' st'' : Arrays}

/-- An access to an element is a move, or does nothing. -/
theorem moves_element {x : Access} (helement : x.member? = none)
    (htarget : ∀ a i v, x = .writeElement (.array a) i v → a ∈ st.made) :
    ReflTransGen (Moves r) st { st with heap := (x.host st.heap).2 } := by
  cases x with
  | call | store | readField | writeField | create => cases helement
  | readElement target i =>
    -- reading leaves the heap alone, whatever is read
    have hsame : ((Access.readElement target i).host st.heap).2 = st.heap := by
      cases target with
      | array a =>
        have hhost : (Access.readElement (.array a) i).host st.heap = a.get i st.heap := rfl
        rw [hhost, ArrayRef.get_apply]
        cases checkIndex i (st.heap.elements a).length <;> rfl
      | _ => rfl
    rw [hsame]
  | writeElement target i v =>
    cases target with
    | array a =>
      rw [Access.host_writeElement]
      exact .single (.set (htarget a i v rfl) i v)
    | _ => exact .refl

/-- **What accesses do, host code may do.** -/
theorem Runs.moves {xs : List Access} (h : Runs r xs st st') : ReflTransGen (Moves r) st st' := by
  induction h with
  | nil => exact .refl
  | element helement htarget _ ih => exact (moves_element helement htarget).trans ih
  | member _ hmoves _ ih => exact hmoves.trans ih

/-! ## What holds of arrays -/

/-- The arrays that have been made are those on the heap, each is of the class that stands for its component, and its
elements are such that the component admits them. -/
structure Sound (r : Registry) (st : Arrays) : Prop where
  numbered : st.made.map (·.address) = List.range st.heap.arrays.length
  classed : ∀ a ∈ st.made, r.arrayOf? a.component = some a.cls
  admitted : ∀ a ∈ st.made, ∀ v ∈ st.heap.elements a, a.component.Admits v

/-- Every array is still there, and as long as it was. -/
def KeepsTo (st st' : Arrays) : Prop :=
  ∀ a ∈ st.made, a ∈ st'.made ∧ (st'.heap.elements a).length = (st.heap.elements a).length

theorem KeepsTo.refl (st : Arrays) : st.KeepsTo st := fun _ ha => ⟨ha, rfl⟩

theorem KeepsTo.trans (h : st.KeepsTo st') (h' : st'.KeepsTo st'') : st.KeepsTo st'' := by
  intro a ha
  obtain ⟨ha', hlength⟩ := h a ha
  obtain ⟨ha'', hlength'⟩ := h' a ha'
  exact ⟨ha'', hlength'.trans hlength⟩

theorem Sound.growsTo (hr : r.GrowsTo r') (hs : st.Sound r) : st.Sound r' where
  numbered := hs.numbered
  classed a ha := hr.arrayOf? (hs.classed a ha)
  admitted := hs.admitted

theorem Sound.address_lt (hs : st.Sound r) (ha : a ∈ st.made) : a.address < st.heap.arrays.length := by
  have hmem : a.address ∈ st.made.map (·.address) := List.mem_map_of_mem ha
  rw [hs.numbered] at hmem
  exact List.mem_range.1 hmem

/-- Two arrays are never at one address. -/
theorem Sound.eq_of_address (hs : st.Sound r) (ha : a ∈ st.made) (hb : b ∈ st.made) (h : a.address = b.address) :
    a = b := by
  have hnodup : (st.made.map (·.address)).Nodup := by
    rw [hs.numbered]
    exact List.nodup_range
  exact List.inj_on_of_nodup_map hnodup ha hb h

/-- **Writing an element** keeps arrays sound. -/
theorem sound_set (hs : st.Sound r) (ha : a ∈ st.made) (i : Int32) (v : Value) :
    Sound r { st with heap := (a.set i v st.heap).2 } ∧ st.KeepsTo { st with heap := (a.set i v st.heap).2 } := by
  have hputs := a.set_puts i v st.heap
  by_cases hdone : (a.set i v st.heap).1 = .ok ()
  · obtain ⟨hadmits, -, -⟩ := hputs.done_iff.1 hdone
    have helements : ∀ b ∈ st.made, (a.set i v st.heap).2.elements b = st.heap.elements b ∨
        b = a ∧ (a.set i v st.heap).2.elements b = (st.heap.elements b).set i.toInt.toNat v := by
      intro b hb
      by_cases haddress : b.address = a.address
      · obtain rfl := hs.eq_of_address hb ha haddress
        exact .inr ⟨rfl, hputs.element hdone⟩
      · exact .inl (hputs.others b haddress)
    refine ⟨⟨?_, hs.classed, ?_⟩, ?_⟩
    · simp only [hputs.count]
      exact hs.numbered
    · intro b hb w hw
      rcases helements b hb with e | ⟨rfl, e⟩ <;> rw [e] at hw
      · exact hs.admitted b hb w hw
      · rcases List.mem_or_eq_of_mem_set hw with hw | rfl
        · exact hs.admitted b hb w hw
        · exact hadmits
    · intro b hb
      refine ⟨hb, ?_⟩
      rcases helements b hb with e | ⟨-, e⟩ <;> rw [e]
      exact List.length_set
  · rw [hputs.undone hdone]
    exact ⟨hs, .refl st⟩

/-- **Making an array** keeps arrays sound, also where its class is made first, and gives it the elements that were
asked for. -/
theorem sound_newArray (hs : st.Sound r) (hok : r.newArray st.heap t items = .ok (a, r', h')) :
    Sound r' ⟨st.made ++ [a], h'⟩ ∧ st.KeepsTo ⟨st.made ++ [a], h'⟩ ∧ h'.elements a = items := by
  obtain ⟨hitems, ha, hr, hheap⟩ := Registry.newArray_ok hok
  have hgrows : r.GrowsTo r' := hr ▸ Registry.growsTo_apply r (.arrayClass t)
  have hnew : h'.elements a = items := by
    rw [ha, hheap]
    simp [Heap.elements]
  have hold : ∀ b ∈ st.made, h'.elements b = st.heap.elements b := by
    intro b hb
    rw [hheap]
    unfold Heap.elements
    simp only
    rw [List.getElem?_append_left (hs.address_lt hb)]
  refine ⟨⟨?_, ?_, ?_⟩, ?_, hnew⟩
  · rw [List.map_append, hs.numbered, ha, hheap]
    simp [List.range_succ]
  · intro b hb
    rcases List.mem_append.1 hb with hb | hb
    · exact hgrows.arrayOf? (hs.classed b hb)
    · rw [List.mem_singleton.1 hb, ha, hr]
      exact Store.arrayOf?_arrayClass r t
  · intro b hb v hv
    rcases List.mem_append.1 hb with hb | hb
    · rw [hold b hb] at hv
      exact hs.admitted b hb v hv
    · rw [List.mem_singleton.1 hb] at hv ⊢
      rw [hnew] at hv
      rw [ha]
      exact ArrayRef.admits_of_accepts_all hitems v hv
  · exact fun b hb => ⟨List.mem_append_left _ hb, congrArg List.length (hold b hb)⟩

/-- **One move** keeps arrays sound. -/
theorem sound_move (hs : st.Sound r) (h : Moves r st st') : st'.Sound r ∧ st.KeepsTo st' := by
  cases h with
  | objects objects => exact ⟨⟨hs.numbered, hs.classed, hs.admitted⟩, fun a ha => ⟨ha, rfl⟩⟩
  | set ha i v => exact sound_set hs ha i v
  | newArray hok =>
    obtain ⟨hs', hkeeps, -⟩ := sound_newArray hs hok
    exact ⟨hs', hkeeps⟩

/-- **Host code keeps arrays sound.** -/
theorem sound_moves (hs : st.Sound r) (h : ReflTransGen (Moves r) st st') : st'.Sound r ∧ st.KeepsTo st' := by
  induction h with
  | refl => exact ⟨hs, .refl st⟩
  | tail _ hmove ih =>
    obtain ⟨hs', hkeeps⟩ := ih
    obtain ⟨hs'', hkeeps'⟩ := sound_move hs' hmove
    exact ⟨hs'', hkeeps.trans hkeeps'⟩

end Arrays

end MemberAccess
