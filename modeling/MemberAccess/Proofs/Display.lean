import Mathlib.Data.Finset.Card
import Mathlib.Data.List.Induction
import Mathlib.Logic.Relation
import MemberAccess.Proofs.Heap

/-!
# The texts of values

The text of an array has the texts of its elements in it, so there is none for an array that contains itself, be it
inside others. All other values have one, and it is found within a bound, because no array can be nested deeper than
there are arrays.

* `Heap.Shows`: the text of a value, without a bound.
* `Heap.Holds`, `Heap.LeadsTo`, `Heap.Cyclic`: arrays in arrays, and values that lead to an array that contains itself.
* `Heap.display_eq_some_iff`, `Heap.exists_shows_iff`: the bound is right, and which values have a text.
* `Deed`, `Heap.after`, `Heap.Allows`: what is done to a heap, with values that are there.
* `Deed.Closes`: a write that puts into an array what leads to that array; `acyclic_after_iff`: nothing else makes an
  array contain itself.
* `acyclic_afterAll_iff`: the same for deeds that go on.
-/

namespace MemberAccess

open Relation

/-- Where the array is that a value refers to. -/
def Value.address? : Value → Option Nat
  | .array a => some a.address
  | _ => none

namespace Heap

/-- **The text of a value**: an array shows the texts of its elements. Nothing is said about how deep this goes. -/
inductive Shows (h : Heap) : Value → String → Prop where
  | plain {v text} (hplain : v.address? = none) (htext : h.displayWithin 0 v = some text) : Shows h v text
  | array {a} (text : Value → String) (helements : ∀ v ∈ h.elements a, Shows h v (text v)) :
      Shows h (.array a) ("[" ++ ", ".intercalate ((h.elements a).map text) ++ "]")

/-- An array has an element that refers to an array; both by their addresses. -/
def Holds (h : Heap) (m n : Nat) : Prop := ∃ v ∈ (h.arrays[m]?).getD [], v.address? = some n

/-- A value refers to an array, or to one that has it somewhere inside. -/
def LeadsTo (h : Heap) (v : Value) (n : Nat) : Prop := ∃ m, v.address? = some m ∧ ReflTransGen h.Holds m n

/-- A value leads to an array that contains itself. -/
def Cyclic (h : Heap) (v : Value) : Prop := ∃ n, h.LeadsTo v n ∧ TransGen h.Holds n n

/-- No array contains itself. -/
def Acyclic (h : Heap) : Prop := ∀ n, ¬TransGen h.Holds n n

/-- The array that a value refers to is there. -/
def Has (h : Heap) (v : Value) : Prop := ∀ n, v.address? = some n → n < h.arrays.length

/-- All arrays that elements of arrays refer to are there. -/
def Closed (h : Heap) : Prop := ∀ m n, h.Holds m n → n < h.arrays.length

variable {h : Heap} {v : Value} {a : ArrayRef} {text text' : String} {n depth : Nat}

/-! ## Values that have a text -/

theorem address?_eq_some_iff : v.address? = some n ↔ ∃ a, v = .array a ∧ a.address = n := by
  cases v <;> simp [Value.address?]

theorem holds_iff : h.Holds a.address n ↔ ∃ v ∈ h.elements a, v.address? = some n := Iff.rfl

/-- What refers to no array has a text, and the bound does not matter. -/
theorem displayWithin_plain (hplain : v.address? = none) (depth : Nat) :
    h.displayWithin depth v = h.displayWithin 0 v ∧ ∃ text, h.displayWithin 0 v = some text := by
  cases v with
  | array a => cases hplain
  | _ => cases depth <;> exact ⟨rfl, _, rfl⟩

theorem mapM_eq_some_iff {α β : Type} {f : α → Option β} {xs : List α} {ys : List β} :
    xs.mapM f = some ys ↔ xs.map f = ys.map some := by
  induction xs generalizing ys with
  | nil => cases ys <;> simp
  | cons x rest ih => cases ys <;> simp [List.mapM_cons, Option.bind_eq_some_iff, ih]

theorem displayWithin_array : h.displayWithin (depth + 1) (.array a) = some text ↔
    ∃ texts : Value → String, (∀ v ∈ h.elements a, h.displayWithin depth v = some (texts v)) ∧
      text = "[" ++ ", ".intercalate ((h.elements a).map texts) ++ "]" := by
  have hunfold : h.displayWithin (depth + 1) (.array a) =
      ((h.elements a).mapM (h.displayWithin depth)).map fun items => "[" ++ ", ".intercalate items ++ "]" := rfl
  rw [hunfold, Option.map_eq_some_iff]
  constructor
  · rintro ⟨items, hitems, rfl⟩
    rw [mapM_eq_some_iff] at hitems
    refine ⟨fun v => (h.displayWithin depth v).getD "", fun v hv => ?_, ?_⟩
    · have hmem : h.displayWithin depth v ∈ items.map some := hitems ▸ List.mem_map_of_mem hv
      obtain ⟨s, -, hs⟩ := List.mem_map.1 hmem
      change h.displayWithin depth v = some ((h.displayWithin depth v).getD "")
      rw [← hs]
      rfl
    · have hmap := congrArg (List.map fun s? : Option String => s?.getD "") hitems
      rw [List.map_map, List.map_map] at hmap
      have hid : items.map ((fun s? : Option String => s?.getD "") ∘ some) = items := List.map_id items
      rw [hid] at hmap
      rw [← hmap]
      rfl
  · rintro ⟨texts, htexts, rfl⟩
    refine ⟨_, mapM_eq_some_iff.2 ?_, rfl⟩
    rw [List.map_map]
    exact List.map_congr_left htexts

/-- **A text that is found within a bound is the text of the value.** -/
theorem shows_of_displayWithin (hd : h.displayWithin depth v = some text) : h.Shows v text := by
  induction depth generalizing v text with
  | zero =>
    cases hv : v.address? with
    | none => exact .plain hv hd
    | some n =>
      obtain ⟨a, rfl, -⟩ := address?_eq_some_iff.1 hv
      cases hd
  | succ depth ih =>
    cases hv : v.address? with
    | none => exact .plain hv ((displayWithin_plain hv _).1 ▸ hd)
    | some n =>
      obtain ⟨a, rfl, -⟩ := address?_eq_some_iff.1 hv
      obtain ⟨texts, htexts, rfl⟩ := displayWithin_array.1 hd
      exact .array texts fun w hw => ih (htexts w hw)

/-- A value has one text at most. -/
theorem Shows.unique (hs : h.Shows v text) (hs' : h.Shows v text') : text = text' := by
  induction hs generalizing text' with
  | plain hplain htext =>
    cases hs' with
    | plain _ htext' => exact Option.some.inj (htext.symm.trans htext')
    | array => cases hplain
  | @array a texts _ ih =>
    cases hs' with
    | plain hplain => cases hplain
    | array texts' helements' =>
      have hsame : (h.elements a).map texts = (h.elements a).map texts' :=
        List.map_congr_left fun v hv => ih v hv (helements' v hv)
      rw [hsame]

theorem LeadsTo.holds (hv : v ∈ h.elements a) (hn : h.LeadsTo v n) : TransGen h.Holds a.address n := by
  obtain ⟨m, hm, hpath⟩ := hn
  exact .head' (holds_iff.2 ⟨v, hv, hm⟩) hpath

/-- An array leads to one that contains itself exactly if one of its elements does. -/
theorem cyclic_array_iff : h.Cyclic (.array a) ↔ ∃ v ∈ h.elements a, h.Cyclic v := by
  constructor
  · rintro ⟨n, ⟨m, hm, hpath⟩, hcycle⟩
    obtain rfl := Option.some.inj hm
    -- in any case something is inside the array
    obtain ⟨k, hk, hrest⟩ := TransGen.head'_iff.1 (hcycle.trans_right hpath)
    obtain ⟨v, hv, hvk⟩ := holds_iff.1 hk
    exact ⟨v, hv, n, ⟨k, hvk, hrest⟩, hcycle⟩
  · rintro ⟨v, hv, n, hlead, hcycle⟩
    exact ⟨n, ⟨a.address, rfl, (hlead.holds hv).to_reflTransGen⟩, hcycle⟩

/-- What leads to an array that contains itself has no text. -/
theorem Shows.not_cyclic (hs : h.Shows v text) : ¬h.Cyclic v := by
  induction hs with
  | plain hplain =>
    rintro ⟨n, ⟨m, hm, -⟩, -⟩
    rw [hplain] at hm
    cases hm
  | array texts _ ih =>
    intro hcyclic
    obtain ⟨v, hv, hcyclic⟩ := cyclic_array_iff.1 hcyclic
    exact ih v hv hcyclic

open Classical in
/-- The arrays that a value leads to. -/
noncomputable def reached (h : Heap) (v : Value) : Finset Nat := (Finset.range h.arrays.length).filter (h.LeadsTo v)

theorem mem_reached : n ∈ h.reached v ↔ n < h.arrays.length ∧ h.LeadsTo v n := by
  simp [reached]

/-- **Without a cycle a value has a text**, and it is found within as many steps as there are arrays to be reached. -/
theorem displayWithin_of_not_cyclic (hclosed : h.Closed) (hhas : h.Has v) (hcyclic : ¬h.Cyclic v)
    (hdepth : (h.reached v).card ≤ depth) : ∃ text, h.displayWithin depth v = some text := by
  induction depth generalizing v with
  | zero =>
    cases hv : v.address? with
    | none => exact (displayWithin_plain hv 0).2
    | some n =>
      have hmem : n ∈ h.reached v := mem_reached.2 ⟨hhas n hv, n, hv, .refl⟩
      rw [Finset.card_eq_zero.1 (Nat.le_zero.1 hdepth)] at hmem
      cases hmem
  | succ depth ih =>
    cases hv : v.address? with
    | none => exact (displayWithin_plain hv (depth + 1)).1 ▸ (displayWithin_plain hv 0).2
    | some n =>
      obtain ⟨a, rfl, rfl⟩ := address?_eq_some_iff.1 hv
      have helements : ∀ w ∈ h.elements a, ∃ text, h.displayWithin depth w = some text := by
        intro w hw
        have hwcyclic : ¬h.Cyclic w := fun hc => hcyclic (cyclic_array_iff.2 ⟨w, hw, hc⟩)
        refine ih (fun m hm => hclosed _ _ (holds_iff.2 ⟨w, hw, hm⟩)) hwcyclic ?_
        -- an element leads to no array but those inside, and the array is not among them
        have hfewer : h.reached w ⊂ h.reached (.array a) := by
          refine Finset.ssubset_iff_subset_ne.2 ⟨fun m hm => ?_, fun heq => ?_⟩
          · obtain ⟨hm, hlead⟩ := mem_reached.1 hm
            exact mem_reached.2 ⟨hm, a.address, rfl, (hlead.holds hw).to_reflTransGen⟩
          · have hself : a.address ∈ h.reached w := heq ▸ mem_reached.2 ⟨hhas _ hv, _, rfl, .refl⟩
            obtain ⟨-, hlead⟩ := mem_reached.1 hself
            exact hcyclic ⟨a.address, ⟨a.address, rfl, .refl⟩, hlead.holds hw⟩
        exact Nat.lt_succ_iff.1 ((Finset.card_lt_card hfewer).trans_le hdepth)
      choose! texts htexts using helements
      exact ⟨_, displayWithin_array.2 ⟨texts, htexts, rfl⟩⟩

theorem display_of_not_cyclic (hclosed : h.Closed) (hhas : h.Has v) (hcyclic : ¬h.Cyclic v) :
    ∃ text, h.display v = some text := by
  have hsubset : h.reached v ⊆ Finset.range h.arrays.length := fun n hn => Finset.mem_range.2 (mem_reached.1 hn).1
  have hcard := Finset.card_le_card hsubset
  rw [Finset.card_range] at hcard
  exact displayWithin_of_not_cyclic hclosed hhas hcyclic hcard

/-- **The text of a value is found** when it has one, and nothing else is. -/
theorem display_eq_some_iff (hclosed : h.Closed) (hhas : h.Has v) : h.display v = some text ↔ h.Shows v text := by
  refine ⟨shows_of_displayWithin, fun hs => ?_⟩
  obtain ⟨text', hdisplay⟩ := display_of_not_cyclic hclosed hhas hs.not_cyclic
  rw [hdisplay, hs.unique (shows_of_displayWithin hdisplay)]

/-- **Which values have a text**: those that lead to no array that contains itself. -/
theorem exists_shows_iff (hclosed : h.Closed) (hhas : h.Has v) : (∃ text, h.Shows v text) ↔ ¬h.Cyclic v := by
  constructor
  · rintro ⟨text, hs⟩
    exact hs.not_cyclic
  · intro hcyclic
    obtain ⟨text, hdisplay⟩ := display_of_not_cyclic hclosed hhas hcyclic
    exact ⟨text, shows_of_displayWithin hdisplay⟩

/-- All values have a text exactly if no array contains itself. -/
theorem acyclic_iff (hclosed : h.Closed) : h.Acyclic ↔ ∀ v, h.Has v → ∃ text, h.Shows v text := by
  constructor
  · intro hacyclic v hhas
    refine (exists_shows_iff hclosed hhas).2 ?_
    rintro ⟨n, -, hcycle⟩
    exact hacyclic n hcycle
  · intro hall n hcycle
    -- the array is one that is held, so it is there
    obtain ⟨m, -, hheld⟩ := TransGen.tail'_iff.1 hcycle
    have hhas : h.Has (.array ⟨n, .object, .null⟩) := by
      intro k hk
      rw [← Option.some.inj hk]
      exact hclosed m n hheld
    exact (exists_shows_iff hclosed hhas).1 (hall _ hhas) ⟨n, ⟨n, rfl, .refl⟩, hcycle⟩

end Heap

/-! ## What is done to a heap -/

/-- What is done to a heap: its objects are changed in any way, an array is made, or a value is put at an index of
one. -/
inductive Deed where
  | objects (states : List ObjectState)
  | newArray (cls : ClassId) (component : Ty) (items : List Value)
  | set (a : ArrayRef) (i : Int32) (v : Value)

namespace Heap

def after (h : Heap) : Deed → Heap
  | .objects states => { h with objects := states }
  | .newArray cls component items => (h.newArray cls component items).2
  | .set a i v => (a.set i v h).2

def afterAll (h : Heap) (deeds : List Deed) : Heap := deeds.foldl after h

end Heap

namespace Deed

/-- The values that are put into arrays are there. -/
def Possible (h : Heap) : Deed → Prop
  | .objects _ => True
  | .newArray _ _ items => ∀ v ∈ items, h.Has v
  | .set _ _ v => h.Has v

/-- What a write to an array comes to, for the property that is written. -/
def written (a : ArrayRef) (key v : Value) : List Deed := (key.toIndex?.map fun i => .set a i v).toList

/-- A value is put into an array that it leads to. -/
def Closes (h : Heap) : Deed → Prop
  | .set a i v => (a.set i v h).1 = .ok () ∧ h.LeadsTo v a.address
  | _ => False

end Deed

namespace Heap

/-- Deeds that are possible one after the other. -/
def Allows : Heap → List Deed → Prop
  | _, [] => True
  | h, d :: rest => d.Possible h ∧ (h.after d).Allows rest

variable {h h' : Heap} {v : Value} {a : ArrayRef} {m n : Nat} {i : Int32} {d : Deed} {done : Prop}
  {deeds deeds' : List Deed}

theorem closed_mk_nil (objects : List ObjectState) : (Heap.mk [] objects).Closed := by
  rintro m n ⟨v, hv, -⟩
  cases hv

theorem acyclic_mk_nil (objects : List ObjectState) : (Heap.mk [] objects).Acyclic := by
  intro n hcycle
  obtain ⟨m, ⟨v, hv, -⟩, -⟩ := TransGen.head'_iff.1 hcycle
  cases hv

/-! ### Writes to arrays -/

/-- A write leaves alone what other arrays hold. -/
theorem Puts.holds_others (hputs : h.Puts a i v done h') (hm : m ≠ a.address) : h'.Holds m n ↔ h.Holds m n := by
  have hsame : h'.elements ⟨m, .object, .null⟩ = h.elements ⟨m, .object, .null⟩ := hputs.others _ hm
  have hiff : h'.Holds m n ↔ ∃ v ∈ h'.elements ⟨m, .object, .null⟩, v.address? = some n := Iff.rfl
  rw [hiff, hsame]
  rfl

/-- What is held after a write to an array was held before, or it is what the value refers to. -/
theorem Puts.holds (hputs : h.Puts a i v done h') (hheld : h'.Holds m n) :
    h.Holds m n ∨ done ∧ m = a.address ∧ v.address? = some n := by
  by_cases hm : m = a.address
  · subst hm
    by_cases hdone : done
    · obtain ⟨w, hw, hn⟩ := holds_iff.1 hheld
      rw [hputs.element hdone] at hw
      rcases List.mem_or_eq_of_mem_set hw with hw | rfl
      · exact .inl (holds_iff.2 ⟨w, hw, hn⟩)
      · exact .inr ⟨hdone, rfl, hn⟩
    · rw [hputs.undone hdone] at hheld
      exact .inl hheld
  · exact .inl ((hputs.holds_others hm).1 hheld)

/-- What is inside an array after a write was inside it before, or it is there because of the value. -/
theorem Puts.contains (hputs : h.Puts a i v done h') (hpath : TransGen h'.Holds m n) :
    TransGen h.Holds m n ∨ done ∧ ReflTransGen h.Holds m a.address ∧ h.LeadsTo v n := by
  induction hpath with
  | single hheld =>
    rcases hputs.holds hheld with hheld | ⟨hdone, rfl, hn⟩
    · exact .inl (.single hheld)
    · exact .inr ⟨hdone, .refl, _, hn, .refl⟩
  | tail _ hheld ih =>
    rcases ih with hold | ⟨hdone, hto, k, hk, hfrom⟩ <;> rcases hputs.holds hheld with hheld | ⟨hdone', rfl, hn⟩
    · exact .inl (hold.tail hheld)
    · exact .inr ⟨hdone', hold.to_reflTransGen, _, hn, .refl⟩
    · exact .inr ⟨hdone, hto, k, hk, hfrom.tail hheld⟩
    · exact .inr ⟨hdone, hto, _, hn, .refl⟩

/-- A way to the array, up to where it first comes there, does not use what the array held. -/
theorem Puts.path_to (hputs : h.Puts a i v done h') (hpath : ReflTransGen h.Holds m a.address) :
    ReflTransGen h'.Holds m a.address := by
  induction hpath using ReflTransGen.head_induction_on with
  | refl => exact .refl
  | @head k l hheld _ ih =>
    by_cases hk : k = a.address
    · rw [hk]
    · exact .head ((hputs.holds_others hk).2 hheld) ih

/-- **When a write makes an array contain itself**: when it puts a value into an array that the value leads to. -/
theorem Puts.acyclic_iff (hputs : h.Puts a i v done h') (hacyclic : h.Acyclic) :
    h'.Acyclic ↔ ¬(done ∧ h.LeadsTo v a.address) := by
  constructor
  · rintro hacyclic' ⟨hdone, m, hm, hpath⟩
    have hheld : h'.Holds a.address m := by
      obtain ⟨-, -, hindex⟩ := hputs.done_iff.1 hdone
      rw [holds_iff, hputs.element hdone]
      exact ⟨v, List.mem_set hindex v, hm⟩
    exact hacyclic' _ (.head' hheld (hputs.path_to hpath))
  · intro hnot n hcycle
    rcases hputs.contains hcycle with hcycle | ⟨hdone, hto, k, hk, hfrom⟩
    · exact hacyclic n hcycle
    · exact hnot ⟨hdone, k, hk, hfrom.trans hto⟩

/-! ### Deeds -/

/-- What is held after an array has been made was held before, or is held by the new one. -/
theorem holds_newArray {cls : ClassId} {component : Ty} {items : List Value} :
    (h.newArray cls component items).2.Holds m n ↔
      h.Holds m n ∨ m = h.arrays.length ∧ ∃ v ∈ items, v.address? = some n := by
  unfold Holds Heap.newArray
  simp only
  rcases Nat.lt_trichotomy m h.arrays.length with hm | rfl | hm
  · rw [List.getElem?_append_left hm]
    simp [hm.ne]
  · simp
  · have hlength : (h.arrays ++ [items]).length ≤ m := by
      rw [List.length_append]
      exact hm
    rw [List.getElem?_eq_none hlength, List.getElem?_eq_none hm.le]
    simp [hm.ne']

/-- **A deed that is possible leaves a heap closed.** -/
theorem closed_after (hclosed : h.Closed) (hpossible : d.Possible h) : (h.after d).Closed := by
  cases d with
  | objects states => exact hclosed
  | newArray cls component items =>
    intro m n hheld
    have hcount : (h.after (.newArray cls component items)).arrays.length = h.arrays.length + 1 :=
      List.length_append
    rw [hcount]
    rcases holds_newArray.1 hheld with hheld | ⟨-, v, hv, hn⟩
    · exact Nat.lt_succ_of_lt (hclosed m n hheld)
    · exact Nat.lt_succ_of_lt (hpossible v hv n hn)
  | set a i v =>
    have hputs := a.set_puts i v h
    intro m n hheld
    have hcount : (h.after (.set a i v)).arrays.length = h.arrays.length := hputs.count
    rw [hcount]
    rcases hputs.holds hheld with hheld | ⟨-, -, hn⟩
    · exact hclosed m n hheld
    · exact hpossible n hn

/-- An array that was there before contains what it contained: nothing refers to the new one yet. -/
theorem contains_newArray {cls : ClassId} {component : Ty} {items : List Value} (hclosed : h.Closed)
    (hm : m < h.arrays.length)
    (hpath : TransGen (h.newArray cls component items).2.Holds m n) : TransGen h.Holds m n ∧ n < h.arrays.length := by
  have hold : ∀ {k l}, k < h.arrays.length → (h.newArray cls component items).2.Holds k l → h.Holds k l := by
    intro k l hk hheld
    exact (holds_newArray.1 hheld).resolve_right fun hnew => hk.ne hnew.1
  induction hpath with
  | single hheld => exact ⟨.single (hold hm hheld), hclosed _ _ (hold hm hheld)⟩
  | tail _ hheld ih =>
    obtain ⟨hpath, hk⟩ := ih
    exact ⟨hpath.tail (hold hk hheld), hclosed _ _ (hold hk hheld)⟩

/-- **When a deed makes an array contain itself**: when it is a write that puts a value into an array that the value
leads to. -/
theorem acyclic_after_iff (hclosed : h.Closed) (hpossible : d.Possible h) (hacyclic : h.Acyclic) :
    (h.after d).Acyclic ↔ ¬d.Closes h := by
  cases d with
  | objects states => exact iff_of_true hacyclic not_false
  | newArray cls component items =>
    refine iff_of_true (fun n hcycle => ?_) not_false
    obtain ⟨m, -, hheld⟩ := TransGen.tail'_iff.1 hcycle
    have hn : n < h.arrays.length := by
      rcases holds_newArray.1 hheld with hheld | ⟨-, v, hv, hn⟩
      · exact hclosed m n hheld
      · exact hpossible v hv n hn
    exact hacyclic n (contains_newArray hclosed hn hcycle).1
  | set a i v => exact (a.set_puts i v h).acyclic_iff hacyclic

/-! ### One deed after the other -/

theorem afterAll_append (h : Heap) (deeds deeds' : List Deed) :
    h.afterAll (deeds ++ deeds') = (h.afterAll deeds).afterAll deeds' := List.foldl_append

theorem afterAll_concat (h : Heap) (deeds : List Deed) (d : Deed) :
    h.afterAll (deeds ++ [d]) = (h.afterAll deeds).after d := List.foldl_concat after h d deeds

theorem allows_append : h.Allows (deeds ++ deeds') ↔ h.Allows deeds ∧ (h.afterAll deeds).Allows deeds' := by
  induction deeds generalizing h with
  | nil => exact (and_iff_right trivial).symm
  | cons d rest ih => exact (and_congr_right fun _ => ih).trans and_assoc.symm

/-- What is possible after deeds. -/
theorem Allows.possible {before : List Deed} (hallows : h.Allows deeds) (hbegins : before ++ [d] <+: deeds) :
    h.Allows before ∧ d.Possible (h.afterAll before) := by
  obtain ⟨rest, rfl⟩ := hbegins
  obtain ⟨hbefore, -⟩ := allows_append.1 hallows
  obtain ⟨hbefore, hpossible, -⟩ := allows_append.1 hbefore
  exact ⟨hbefore, hpossible⟩

theorem closed_afterAll (hclosed : h.Closed) (hallows : h.Allows deeds) : (h.afterAll deeds).Closed := by
  induction deeds generalizing h with
  | nil => exact hclosed
  | cons d rest ih => exact ih (closed_after hclosed hallows.1) hallows.2

/-- **When no array ever contains itself**: when no write puts into an array a value that leads to it. -/
theorem acyclic_afterAll_iff (hclosed : h.Closed) (hacyclic : h.Acyclic) (hallows : h.Allows deeds) :
    (∀ before, before <+: deeds → (h.afterAll before).Acyclic) ↔
      ∀ before d, before ++ [d] <+: deeds → ¬d.Closes (h.afterAll before) := by
  have hstep : ∀ before d, before ++ [d] <+: deeds → (h.afterAll before).Acyclic →
      ((h.afterAll (before ++ [d])).Acyclic ↔ ¬d.Closes (h.afterAll before)) := by
    intro before d hbegins hbefore
    obtain ⟨hallowed, hpossible⟩ := hallows.possible hbegins
    rw [afterAll_concat]
    exact acyclic_after_iff (closed_afterAll hclosed hallowed) hpossible hbefore
  constructor
  · intro hall before d hbegins
    exact (hstep before d hbegins (hall before ((List.prefix_append _ _).trans hbegins))).1 (hall _ hbegins)
  · intro hnone before hbegins
    induction before using List.reverseRecOn with
    | nil => exact hacyclic
    | append_singleton before d ih =>
      have hbefore := ih ((List.prefix_append _ _).trans hbegins)
      exact (hstep before d hbegins hbefore).2 (hnone before d hbegins)

end Heap

end MemberAccess
