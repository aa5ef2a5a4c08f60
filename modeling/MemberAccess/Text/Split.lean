/-!
# Cutting texts

* `splitLast`: a text before and after the last occurrence of a character (`splitLast_eq_some_iff`).
* `after?`, `before?`: what follows a text inside a longer one, and what is in front of one.
* `occursIn`: whether a text occurs inside another.
* `parts`: what stands between separators.
-/

namespace MemberAccess.Text

/-- The parts before and after the last occurrence of a character, none when it does not occur. -/
def splitLast (sep : Char) (s : String) : Option (String × String) :=
  let back := s.toList.reverse
  match back.dropWhile (· ≠ sep) with
  | [] => none
  | _ :: before =>
    some (String.ofList before.reverse, String.ofList (back.takeWhile (· ≠ sep)).reverse)

/-- What follows `start` in a text that begins with it. -/
def after? : List Char → List Char → Option (List Char)
  | [], rest => some rest
  | _ :: _, [] => none
  | a :: start, b :: rest => if a = b then after? start rest else none

/-- The text before an ending. -/
def before? (ending s : List Char) : Option (List Char) :=
  (after? ending.reverse s.reverse).map List.reverse

/-- Whether a text occurs inside another. -/
def occursIn (part : List Char) : List Char → Bool
  | [] => part.isEmpty
  | c :: rest => part.isPrefixOf (c :: rest) || occursIn part rest

/-- A text cut at every separator. -/
def pieces (isSeparator : Char → Bool) : List Char → List (List Char)
  | [] => [[]]
  | c :: rest =>
    match isSeparator c, pieces isSeparator rest with
    | false, piece :: more => (c :: piece) :: more
    | _, more => [] :: more

/-- The parts of a text between separators; several in a row count as one. -/
def parts (isSeparator : Char → Bool) (s : List Char) : List (List Char) :=
  (pieces isSeparator s).filter (!·.isEmpty)

theorem after?_eq_some_iff {start s rest : List Char} :
    after? start s = some rest ↔ s = start ++ rest := by
  induction start generalizing s with
  | nil => simp [after?, eq_comm]
  | cons a start ih =>
    cases s with
    | nil => simp [after?]
    | cons b s =>
      by_cases hab : a = b
      · subst hab; simp [after?, ih]
      · simp [after?, hab, Ne.symm hab]

theorem after?_eq_none_iff {start s : List Char} : after? start s = none ↔ ∀ rest, s ≠ start ++ rest := by
  simp only [Option.eq_none_iff_forall_ne_some, ne_eq, after?_eq_some_iff]

theorem before?_eq_some_iff {ending s start : List Char} :
    before? ending s = some start ↔ s = start ++ ending := by
  unfold before?
  rw [Option.map_eq_some_iff]
  constructor
  · rintro ⟨back, hback, rfl⟩
    rw [← List.reverse_reverse s, after?_eq_some_iff.1 hback]
    simp
  · rintro rfl
    exact ⟨start.reverse, after?_eq_some_iff.2 (by simp), List.reverse_reverse start⟩

theorem before?_eq_none_iff {ending s : List Char} : before? ending s = none ↔ ∀ start, s ≠ start ++ ending := by
  simp only [Option.eq_none_iff_forall_ne_some, ne_eq, before?_eq_some_iff]

theorem splitLast_of_not_mem {sep : Char} {s : String} (h : sep ∉ s.toList) : splitLast sep s = none := by
  have hother : ∀ c ∈ s.toList.reverse, decide (c ≠ sep) = true := by
    intro c hc
    exact decide_eq_true fun hsame => h (hsame ▸ List.mem_reverse.1 hc)
  have hdrop : s.toList.reverse.dropWhile (· ≠ sep) = [] := by
    rw [← List.append_nil s.toList.reverse, List.dropWhile_append_of_pos hother, List.dropWhile_nil]
  simp only [splitLast, hdrop]

theorem splitLast_of_append {sep : Char} {s : String} {before after : List Char}
    (h : s.toList = before ++ sep :: after) (hafter : sep ∉ after) :
    splitLast sep s = some (.ofList before, .ofList after) := by
  have hback : s.toList.reverse = after.reverse ++ sep :: before.reverse := by simp [h]
  have hother : ∀ c ∈ after.reverse, decide (c ≠ sep) = true := by
    intro c hc
    exact decide_eq_true fun hsame => hafter (hsame ▸ List.mem_reverse.1 hc)
  simp only [splitLast]
  rw [hback, List.dropWhile_append_of_pos hother, List.takeWhile_append_of_pos hother]
  simp

/-- A character that occurs has a last occurrence. -/
theorem exists_last {sep : Char} {s : List Char} (h : sep ∈ s) :
    ∃ before after, s = before ++ sep :: after ∧ sep ∉ after := by
  obtain ⟨behind, front, hsplit, hbehind⟩ := List.eq_append_cons_of_mem (List.mem_reverse.2 h)
  refine ⟨front.reverse, behind.reverse, ?_, fun hin => hbehind (List.mem_reverse.1 hin)⟩
  rw [← List.reverse_reverse s, hsplit]
  simp

theorem splitLast_eq_none_iff {sep : Char} {s : String} : splitLast sep s = none ↔ sep ∉ s.toList := by
  refine ⟨fun h hmem => ?_, splitLast_of_not_mem⟩
  obtain ⟨before, after, hsplit, hafter⟩ := exists_last hmem
  rw [splitLast_of_append hsplit hafter] at h
  cases h

/-- **A text is cut at the last occurrence**: the character does not occur behind it. -/
theorem splitLast_eq_some_iff {sep : Char} {s before after : String} : splitLast sep s = some (before, after) ↔
    s.toList = before.toList ++ sep :: after.toList ∧ sep ∉ after.toList := by
  constructor
  · intro h
    have hmem : sep ∈ s.toList := by
      refine Decidable.byContradiction fun hnot => ?_
      rw [splitLast_of_not_mem hnot] at h
      cases h
    obtain ⟨front, behind, hsplit, hbehind⟩ := exists_last hmem
    rw [splitLast_of_append hsplit hbehind] at h
    cases h
    simpa using ⟨hsplit, hbehind⟩
  · rintro ⟨h, hafter⟩
    rw [splitLast_of_append h hafter, String.ofList_toList, String.ofList_toList]

end MemberAccess.Text
