import Mathlib.Algebra.Group.Nat.Defs
import MemberAccess.Core.Classes

/-!
# Positions in texts

The methods of texts that go by position count characters, and their arguments are ints. They are written one by one,
and fit together: a text is the concatenation of what stands before and behind any position, a character is the part
between its position and the next one, and a part of a part is a part.

* `Core.callText`: a call of a method that the class of texts declares.
* `Core.Inside`, `Core.part`: positions in order inside a text, and what stands between them.
* `Core.between_of_inside`, `Core.between_of_not_inside`: what `substring` answers.
* `Core.positions_fit`: the methods fit together.
-/

namespace MemberAccess.Core

/-- A call of the method that the class of texts declares under a name, with these parameters. -/
def callText (name : String) (params : List Ty) (target : Value) (args : List Value) : Host Value :=
  match (Registry.initial.class? .string).bind fun d => d.methods.find? fun m => m.name = name ∧ m.params = params with
  | some m => m.invoke target args
  | none => Host.fail (.failure ("no method " ++ name))

/-- `substring` with two positions. -/
def between (target : Value) (first last : Int32) : Host Value :=
  callText "substring" [.int, .int] target [.int first, .int last]

/-- `substring` with one position. -/
def onward (target : Value) (first : Int32) : Host Value := callText "substring" [.int] target [.int first]

/-- `charAt`. -/
def charOf (target : Value) (index : Int32) : Host Value := callText "charAt" [.int] target [.int index]

/-- `concat`. -/
def joined (target other : Value) : Host Value := callText "concat" [.string] target [other]

/-- Two positions in order inside a text, its end included. -/
structure Inside (s : String) (first last : Int32) : Prop where
  start : 0 ≤ first.toInt
  order : first.toInt ≤ last.toInt
  stop : last.toInt ≤ s.length

/-- The characters between two positions. -/
def part (s : String) (first last : Int32) : String :=
  .ofList ((s.toList.take last.toInt.toNat).drop first.toInt.toNat)

variable {s : String} {first last x y i : Int32}

/-! ## What is answered -/

theorem between_eq (s : String) (first last : Int32) : between (.string s) first last =
    Host.ofExcept ((substring s.toList first.toInt (some last.toInt)).map fun t => .string (.ofList t)) := by
  have hcall : between (.string s) first last = Texts.substringBetween (.string s) [.int first, .int last] := by rfl
  rw [hcall]
  rfl

/-- With one position, `substring` goes up to the end. -/
theorem onward_eq (s : String) (first : Int32) :
    onward (.string s) first = between (.string s) first (.ofNat s.length) := by
  have hcall : onward (.string s) first =
      Host.ofExcept ((substring s.toList first.toInt none).map fun t => .string (.ofList t)) := by rfl
  rw [hcall, between_eq, substring_none, String.length_toList]

theorem charOf_eq (s : String) (index : Int32) :
    charOf (.string s) index = Host.ofExcept ((charAt s.toList index.toInt).map .char) := by
  have hcall : charOf (.string s) index = Texts.charAtBody (.string s) [.int index] := by rfl
  rw [hcall]
  rfl

theorem joined_eq (s t : String) : joined (.string s) (.string t) = pure (.string (s ++ t)) := by rfl

theorem between_of_inside (h : Inside s first last) :
    between (.string s) first last = pure (.string (part s first last)) := by
  have hpart : substring s.toList first.toInt (some last.toInt) =
      .ok ((s.toList.take last.toInt.toNat).drop first.toInt.toNat) := by
    refine substring_eq_ok_iff.2 ⟨⟨h.start, h.order, ?_⟩, rfl⟩
    rw [String.length_toList]
    exact h.stop
  rw [between_eq, hpart]
  rfl

theorem between_of_not_inside (h : ¬Inside s first last) : between (.string s) first last =
    Host.fail (.indexOutOfBounds (if first.toInt < 0 then first.toInt else last.toInt) s.length) := by
  have hbounds : ¬(0 ≤ first.toInt ∧ first.toInt ≤ last.toInt ∧ last.toInt ≤ s.toList.length) := by
    rw [String.length_toList]
    exact fun hin => h ⟨hin.1, hin.2.1, hin.2.2⟩
  rw [between_eq]
  unfold substring
  rw [Option.getD_some, if_neg hbounds, String.length_toList]
  rfl

theorem charOf_of_getElem? {c : Char} (hi : 0 ≤ i.toInt) (hc : s.toList[i.toInt.toNat]? = some c) :
    charOf (.string s) i = pure (.char c) := by
  rw [charOf_eq]
  unfold charAt
  rw [if_pos hi, hc]
  rfl

theorem charOf_of_not_inside (h : ¬(0 ≤ i.toInt ∧ i.toInt < s.length)) :
    charOf (.string s) i = Host.fail (.indexOutOfBounds i.toInt s.length) := by
  have hnone : (if 0 ≤ i.toInt then s.toList[i.toInt.toNat]? else none) = none := by
    split
    · rename_i hi
      rw [List.getElem?_eq_none_iff, String.length_toList]
      omega
    · rfl
  rw [charOf_eq]
  unfold charAt
  rw [hnone, String.length_toList]
  rfl

/-! ## Parts of texts -/

theorem length_part (h : Inside s first last) : ((part s first last).length : Int) = last.toInt - first.toInt := by
  obtain ⟨hstart, horder, hstop⟩ := h
  unfold part
  rw [String.length_ofList, List.length_drop, List.length_take, String.length_toList]
  omega

/-- Positions that add up to a position inside a text are not cut. -/
theorem toInt_add_of_le (last : Int32) (hx : 0 ≤ x.toInt) (hfirst : 0 ≤ first.toInt)
    (h : first.toInt + x.toInt ≤ last.toInt) : (first + x).toInt = first.toInt + x.toInt := by
  have hbound : last.toInt < 2 ^ 31 := last.toInt_lt
  rw [Int32.toInt_add]
  exact Int.bmod_eq_of_le (by omega) (by omega)

/-- **A part of a part is a part.** -/
theorem part_part (h : Inside s first last) (h' : Inside (part s first last) x y) :
    part (part s first last) x y = part s (first + x) (first + y) ∧ Inside s (first + x) (first + y) := by
  have hlength := length_part h
  obtain ⟨hstart, horder, hstop⟩ := h
  obtain ⟨hx, hxy, hy⟩ := h'
  have hleft : (first + x).toInt = first.toInt + x.toInt := toInt_add_of_le last hx hstart (by omega)
  have hright : (first + y).toInt = first.toInt + y.toInt := toInt_add_of_le last (by omega) hstart (by omega)
  refine ⟨?_, by omega, by omega, by omega⟩
  unfold part
  rw [hleft, hright, String.toList_ofList, Int.toNat_add hstart hx, Int.toNat_add hstart (by omega)]
  simp only [List.drop_take, List.drop_drop, List.take_take]
  rw [Nat.min_eq_left (by omega), Nat.add_sub_add_left]

/-- The part between a position and the next one is the character there. -/
theorem part_next {c : Char} (hi : 0 ≤ i.toInt) (hnext : (i + 1).toInt = i.toInt + 1)
    (hc : s.toList[i.toInt.toNat]? = some c) : part s i (i + 1) = String.singleton c := by
  obtain ⟨hlt, rfl⟩ := List.getElem?_eq_some_iff.1 hc
  unfold part
  rw [hnext, Int.toNat_add hi (by decide), List.drop_take, Nat.add_sub_cancel_left]
  rw [List.drop_eq_getElem_cons hlt, String.singleton_eq_ofList]
  rfl

/-- A position cuts a text into two parts. -/
theorem part_append_part {n : Int32} (hn : n.toInt = s.length) (k : Int32) : part s 0 k ++ part s k n = s := by
  unfold part
  rw [hn, ← String.ofList_append, Int.toNat_natCast, ← String.length_toList, List.take_length]
  exact (congrArg String.ofList (List.take_append_drop _ _)).trans String.ofList_toList

/-- **Positions fit together**, for every text that is no longer than ints go. `substring` with two positions answers
exactly where they are in order inside the text, and then as many characters as lie between them; with one position it
goes up to the end. `charAt` answers exactly at the positions of characters, with the only character of the part that
goes up to the next position. The parts before and behind a position put together are the text, and a part of a part is
the part at the positions added up. Everything else is refused with the length of the text. -/
theorem positions_fit (s : String) (hs : s.length < 2 ^ 31) :
    (∀ b e : Int32, (Inside s b e →
        ∃ t : String, between (.string s) b e = pure (.string t) ∧ t.length = e.toInt - b.toInt) ∧
      (¬Inside s b e → between (.string s) b e =
        Host.fail (.indexOutOfBounds (if b.toInt < 0 then b.toInt else e.toInt) s.length))) ∧
    ((Int32.ofNat s.length).toInt = s.length ∧
      ∀ b, onward (.string s) b = between (.string s) b (.ofNat s.length)) ∧
    (∀ i : Int32, (0 ≤ i.toInt ∧ i.toInt < s.length → ∃ c, charOf (.string s) i = pure (.char c) ∧
        between (.string s) i (i + 1) = pure (.string (String.singleton c))) ∧
      (¬(0 ≤ i.toInt ∧ i.toInt < s.length) → charOf (.string s) i = Host.fail (.indexOutOfBounds i.toInt s.length))) ∧
    (∀ k : Int32, 0 ≤ k.toInt → k.toInt ≤ s.length →
      (do joined (← between (.string s) 0 k) (← onward (.string s) k)) = pure (.string s)) ∧
    ∀ b e x y : Int32, Inside s b e → 0 ≤ x.toInt → x.toInt ≤ y.toInt → y.toInt ≤ e.toInt - b.toInt →
      (do between (← between (.string s) b e) x y) = between (.string s) (b + x) (b + y) := by
  have hend : (Int32.ofNat s.length).toInt = s.length := Int32.toInt_ofNat_of_lt hs
  refine ⟨fun b e => ⟨fun h => ⟨part s b e, between_of_inside h, length_part h⟩, between_of_not_inside⟩,
    ⟨hend, onward_eq s⟩, ?_, ?_, ?_⟩
  · intro i
    refine ⟨?_, charOf_of_not_inside⟩
    rintro ⟨hi, hlt⟩
    have hnat : i.toInt.toNat < s.toList.length := by
      rw [String.length_toList]
      omega
    have hc := List.getElem?_eq_getElem hnat
    have hnext : (i + 1).toInt = i.toInt + 1 :=
      toInt_add_of_le (.ofNat s.length) (by decide) hi (by rw [hend]; exact hlt)
    refine ⟨_, charOf_of_getElem? hi hc, ?_⟩
    rw [between_of_inside ⟨hi, by omega, by omega⟩, part_next hi hnext hc]
  · intro k hk hkn
    have hzero : (0 : Int32).toInt = 0 := rfl
    have hfront : Inside s 0 k := ⟨by decide, by rw [hzero]; exact hk, hkn⟩
    have hback : Inside s k (.ofNat s.length) := ⟨hk, by omega, by omega⟩
    rw [onward_eq, between_of_inside hfront, between_of_inside hback]
    simp only [pure_bind]
    rw [joined_eq, part_append_part hend]
  · intro b e x y h hx hxy hy
    have hlength := length_part h
    have h' : Inside (part s b e) x y := ⟨hx, hxy, by omega⟩
    obtain ⟨hpart, hinside⟩ := part_part h h'
    rw [between_of_inside h, between_of_inside hinside]
    simp only [pure_bind]
    rw [between_of_inside h', hpart]

/-- Letters count once, however many bytes they take. -/
theorem positions_fit_letters :
    let s := "aé😀"
    s.length < 2 ^ 31 ∧ (∃ t : String, between (.string s) 1 3 = pure (.string t) ∧ t.length = 2) ∧
      between (.string s) 3 2 = Host.fail (.indexOutOfBounds 2 3) ∧
      charOf (.string s) 3 = Host.fail (.indexOutOfBounds 3 3) ∧
      (do between (← between (.string s) 1 3) 1 2) = between (.string s) 2 3 := by
  intro s
  have hs : s.length < 2 ^ 31 := by decide
  obtain ⟨hbetween, -, hchar, -, hnested⟩ := positions_fit s hs
  have hinside : Inside s 1 3 := ⟨by decide, by decide, by decide⟩
  have hlength : s.length = 3 := by decide
  have hone : (1 : Int32).toInt = 1 := by decide
  have htwo : (2 : Int32).toInt = 2 := by decide
  have hthree : (3 : Int32).toInt = 3 := by decide
  obtain ⟨t, ht, hcount⟩ := (hbetween 1 3).1 hinside
  have hbackward := (hbetween 3 2).2 fun h => absurd h.order (by decide)
  have hbehind := (hchar 3).2 (by decide)
  rw [hlength, hthree] at hbehind
  rw [hlength, hthree, htwo, if_neg (by decide)] at hbackward
  rw [hthree, hone] at hcount
  exact ⟨hs, ⟨t, ht, by omega⟩, hbackward, hbehind, hnested 1 3 1 2 hinside (by decide) (by decide) (by decide)⟩

end MemberAccess.Core
