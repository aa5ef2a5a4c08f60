import MemberAccess.Rule.Block

/-!
# Patterns by segments

The name of a package is a row of segments with points between them. A pattern is compared with it letter by letter;
what the pattern means is said by segments: `p.**` covers the packages whose segments begin with those of `p`, and
`p.*` those of them that have more.

* `Rule.segments`, `Rule.Segmented`: what stands between the points of a name, and that it is never empty.
* `Rule.segments_prefix_iff`: a name that begins with the segments of another one.
* `Rule.Means`: what a pattern means.
* `PackageRule.covers_segments`: patterns cover what they mean.
-/

namespace MemberAccess.Rule

/-- What stands between the points of a name. -/
def segments (name : List Char) : List (List Char) := name.splitOn '.'

/-- A name in which no segment is empty. -/
def Segmented (name : List Char) : Prop := ∀ segment ∈ segments name, segment ≠ []

instance (name : List Char) : Decidable (Segmented name) :=
  inferInstanceAs (Decidable (∀ segment ∈ segments name, segment ≠ []))

/-- A pattern that covers packages by a star. -/
inductive Wild : List Char → Prop where
  | all : Wild ['*']
  | deep : Wild ['*', '*']
  | within (parent : List Char) : Wild (parent ++ ['.', '*', '*'])
  | below (parent : List Char) : Wild (parent ++ ['.', '*'])

/-- What a pattern means, by segments. -/
inductive Means (package : List Char) : List Char → Prop where
  | all : Means package ['*']
  | deep : Means package ['*', '*']
  | within (parent : List Char) (h : segments parent <+: segments package) : Means package (parent ++ ['.', '*', '*'])
  | below (parent : List Char) (h : segments parent <+: segments package) (hmore : segments parent ≠ segments package) :
      Means package (parent ++ ['.', '*'])
  | itself (h : ¬Wild package) : Means package package

variable {parent package pattern : List Char}

/-! ## Segments -/

@[simp]
theorem intercalate_segments (name : List Char) : ['.'].intercalate (segments name) = name :=
  List.intercalate_splitOn '.'

theorem segments_append_point (name rest : List Char) :
    segments (name ++ '.' :: rest) = segments name ++ segments rest :=
  List.splitOn_append_cons_self name rest

/-- Names are told apart by their segments. -/
theorem segments_inj : segments parent = segments package ↔ parent = package := by
  constructor
  · intro h
    rw [← intercalate_segments parent, h, intercalate_segments]
  · rintro rfl
    rfl

theorem intercalate_append {xs ys : List (List Char)} (sep : List Char) (hxs : xs ≠ []) (hys : ys ≠ []) :
    sep.intercalate (xs ++ ys) = sep.intercalate xs ++ sep ++ sep.intercalate ys := by
  induction xs with
  | nil => exact absurd rfl hxs
  | cons x xs ih =>
    cases xs with
    | nil =>
      obtain ⟨y, ys, rfl⟩ := List.exists_cons_of_ne_nil hys
      simp [List.intercalate_cons_cons]
    | cons x' xs =>
      have hrest := ih (List.cons_ne_nil _ _)
      rw [List.cons_append] at hrest
      rw [List.cons_append, List.cons_append, List.intercalate_cons_cons, hrest, List.intercalate_cons_cons]
      simp

/-- **A name begins with the segments of another one** when it is that name, or goes on after a point. -/
theorem segments_prefix_iff :
    segments parent <+: segments package ↔ package = parent ∨ ∃ rest, package = parent ++ '.' :: rest := by
  constructor
  · rintro ⟨more, hmore⟩
    rw [← intercalate_segments package, ← hmore]
    cases more with
    | nil => exact .inl (by simp)
    | cons first others =>
      refine .inr ⟨['.'].intercalate (first :: others), ?_⟩
      have hnonempty : segments parent ≠ [] := List.splitOn_ne_nil '.' parent
      rw [intercalate_append _ hnonempty (List.cons_ne_nil _ _), intercalate_segments]
      simp
  · rintro (rfl | ⟨rest, rfl⟩)
    · exact List.prefix_rfl
    · rw [segments_append_point]
      exact List.prefix_append _ _

/-- It has more segments exactly if it goes on. -/
theorem segments_prefix_and_ne_iff : segments parent <+: segments package ∧ segments parent ≠ segments package ↔
    ∃ rest, package = parent ++ '.' :: rest := by
  rw [segments_prefix_iff]
  constructor
  · rintro ⟨rfl | hrest, hne⟩
    · exact absurd rfl hne
    · exact hrest
  · rintro ⟨rest, rfl⟩
    refine ⟨.inr ⟨rest, rfl⟩, fun hsame => ?_⟩
    have hlength := congrArg List.length (segments_inj.1 hsame)
    simp at hlength

/-- In a name without empty segments something stands behind every point. -/
theorem Segmented.ne_nil {rest : List Char} (h : Segmented (parent ++ '.' :: rest)) : rest ≠ [] := by
  rintro rfl
  refine h [] ?_ rfl
  rw [segments_append_point]
  simp [segments]

/-! ## Letters -/

theorem isWithin_eq_true_iff :
    isWithin parent package = true ↔ package = parent ∨ ∃ rest, package = parent ++ '.' :: rest := by
  unfold isWithin
  cases hafter : Text.after? parent package with
  | none =>
    have hnot := Text.after?_eq_none_iff.1 hafter
    refine ⟨nofun, ?_⟩
    rintro (rfl | ⟨rest, hrest⟩)
    · exact absurd (by simp) (hnot [])
    · exact absurd hrest (hnot _)
  | some rest =>
    obtain rfl := Text.after?_eq_some_iff.1 hafter
    cases rest with
    | nil => simp
    | cons c rest => by_cases hc : c = '.' <;> simp [hc]

theorem isBelow_eq_true_iff :
    isBelow parent package = true ↔ ∃ rest, rest ≠ [] ∧ package = parent ++ '.' :: rest := by
  unfold isBelow
  cases hafter : Text.after? parent package with
  | none =>
    refine ⟨nofun, ?_⟩
    rintro ⟨rest, -, hrest⟩
    exact absurd hrest (Text.after?_eq_none_iff.1 hafter _)
  | some rest =>
    obtain rfl := Text.after?_eq_some_iff.1 hafter
    cases rest with
    | nil => simp
    | cons c rest => cases rest <;> by_cases hc : c = '.' <;> simp [hc]

/-- What goes on after a point has at least one more segment. -/
theorem Segmented.isBelow_iff (h : Segmented package) :
    isBelow parent package = true ↔ ∃ rest, package = parent ++ '.' :: rest := by
  rw [isBelow_eq_true_iff]
  constructor
  · rintro ⟨rest, -, hrest⟩
    exact ⟨rest, hrest⟩
  · rintro ⟨rest, rfl⟩
    exact ⟨rest, h.ne_nil, rfl⟩

/-! ## Patterns -/

/-- A pattern that is no star alone is asked for its ending. -/
theorem covers_of_ne (hall : pattern ≠ ['*']) (hdeep : pattern ≠ ['*', '*']) : covers pattern package =
    match Text.before? ['.', '*', '*'] pattern with
    | some parent => isWithin parent package
    | none => match Text.before? ['.', '*'] pattern with
      | some parent => isBelow parent package
      | none => pattern = package := by
  unfold covers
  exact if_neg (by simp [hall, hdeep])

theorem ne_of_point (h : '.' ∈ pattern) : pattern ≠ ['*'] ∧ pattern ≠ ['*', '*'] := by
  constructor <;> rintro rfl <;> simp at h

theorem covers_within (parent package : List Char) :
    covers (parent ++ ['.', '*', '*']) package = isWithin parent package := by
  have hbefore : Text.before? ['.', '*', '*'] (parent ++ ['.', '*', '*']) = some parent :=
    Text.before?_eq_some_iff.2 rfl
  have hpoint : '.' ∈ parent ++ ['.', '*', '*'] := by simp
  rw [covers_of_ne (ne_of_point hpoint).1 (ne_of_point hpoint).2, hbefore]

theorem covers_below (parent package : List Char) :
    covers (parent ++ ['.', '*']) package = isBelow parent package := by
  have hbefore : Text.before? ['.', '*'] (parent ++ ['.', '*']) = some parent := Text.before?_eq_some_iff.2 rfl
  have hnot : Text.before? ['.', '*', '*'] (parent ++ ['.', '*']) = none := by
    refine Text.before?_eq_none_iff.2 fun start hsame => ?_
    -- the last character but one is a point here and a star there
    have hends := congrArg (fun pattern => pattern.reverse[1]?) hsame
    simp at hends
  have hpoint : '.' ∈ parent ++ ['.', '*'] := by simp
  rw [covers_of_ne (ne_of_point hpoint).1 (ne_of_point hpoint).2, hnot, hbefore]

theorem covers_of_not_wild (h : ¬Wild pattern) : covers pattern package = true ↔ pattern = package := by
  have hwithin : Text.before? ['.', '*', '*'] pattern = none :=
    Text.before?_eq_none_iff.2 fun parent hsame => h (hsame ▸ .within parent)
  have hbelow : Text.before? ['.', '*'] pattern = none :=
    Text.before?_eq_none_iff.2 fun parent hsame => h (hsame ▸ .below parent)
  have hall : pattern ≠ ['*'] := fun hsame => h (hsame ▸ .all)
  have hdeep : pattern ≠ ['*', '*'] := fun hsame => h (hsame ▸ .deep)
  rw [covers_of_ne hall hdeep, hwithin, hbelow]
  simp

/-- **Comparing letters is comparing segments.** -/
theorem covers_iff_means (h : Segmented package) : covers pattern package = true ↔ Means package pattern := by
  constructor
  · intro hcovers
    by_cases hwild : Wild pattern
    · cases hwild with
      | all => exact .all
      | deep => exact .deep
      | within parent =>
        rw [covers_within, isWithin_eq_true_iff, ← segments_prefix_iff] at hcovers
        exact .within parent hcovers
      | below parent =>
        rw [covers_below, h.isBelow_iff, ← segments_prefix_and_ne_iff] at hcovers
        exact .below parent hcovers.1 hcovers.2
    · obtain rfl := (covers_of_not_wild hwild).1 hcovers
      exact .itself hwild
  · intro hmeans
    cases hmeans with
    | all | deep => rfl
    | within parent hbegins =>
      rw [covers_within, isWithin_eq_true_iff, ← segments_prefix_iff]
      exact hbegins
    | below parent hbegins hmore =>
      rw [covers_below, h.isBelow_iff, ← segments_prefix_and_ne_iff]
      exact ⟨hbegins, hmore⟩
    | itself hplain => exact (covers_of_not_wild hplain).2 rfl

/-- A name that merely starts with the same letters does not begin with the same segments. -/
theorem not_prefix_of_letter {c : Char} (hc : c ≠ '.') (parent rest : List Char) :
    ¬segments parent <+: segments (parent ++ c :: rest) := by
  rw [segments_prefix_iff]
  rintro (hsame | ⟨rest', hsame⟩)
  · simp at hsame
  · have hnext : c = '.' := by simpa using (List.cons_eq_cons.1 (List.append_cancel_left hsame)).1
    exact hc hnext

namespace PackageRule

theorem covers_mk_within (parent package : String) (classes : ClassRules) :
    (mk (parent ++ ".**") classes).covers package = isWithin parent.toList package.toList := by
  unfold covers
  rw [String.toList_append]
  exact covers_within _ _

theorem covers_mk_below (parent package : String) (classes : ClassRules) :
    (mk (parent ++ ".*") classes).covers package = isBelow parent.toList package.toList := by
  unfold covers
  rw [String.toList_append]
  exact covers_below _ _

/-- **A pattern means what its segments say**, for every package in whose name no segment is empty: `*` and `**` cover
it always, `p.**` when its segments begin with those of `p`, `p.*` when there are more of them as well, and any other
pattern when it is the name of the package. So `p.**` covers `p` and all that `p.*` covers, and neither of them covers
a name that merely starts with the same letters. -/
theorem covers_segments (r : PackageRule) {package : String} (h : Segmented package.toList) :
    (r.covers package = true ↔ Means package.toList r.pattern.toList) ∧
    (∀ parent classes, (mk (parent ++ ".**") classes).covers package = true ↔
      package = parent ∨ (mk (parent ++ ".*") classes).covers package = true) ∧
    ∀ parent classes c rest, c ≠ '.' → package.toList = parent.toList ++ c :: rest →
      (mk (parent ++ ".**") classes).covers package = false ∧ (mk (parent ++ ".*") classes).covers package = false := by
  refine ⟨covers_iff_means h, ?_, ?_⟩
  · intro parent classes
    rw [covers_mk_within, covers_mk_below, isWithin_eq_true_iff, h.isBelow_iff, String.toList_inj]
  · intro parent classes c rest hc hname
    have hnot : ¬segments parent.toList <+: segments package.toList := by
      rw [hname]
      exact not_prefix_of_letter hc parent.toList rest
    rw [covers_mk_within, covers_mk_below, ← Bool.not_eq_true, ← Bool.not_eq_true, isWithin_eq_true_iff, h.isBelow_iff,
      ← segments_prefix_iff, ← segments_prefix_and_ne_iff]
    exact ⟨hnot, fun hbegins => hnot hbegins.1⟩

/-- `app.*` covers what lies below `app`, and `apple` merely starts with the same letters. -/
theorem covers_segments_app :
    Segmented "app.model".toList ∧ Means "app.model".toList "app.*".toList ∧
      Segmented "apple".toList ∧ (mk ("app" ++ ".**") []).covers "apple" = false := by
  have hmodel : Segmented "app.model".toList := by decide
  have happle : Segmented "apple".toList := by decide
  have hcovers : (mk "app.*" []).covers "app.model" = true := by decide
  have hletters := ((mk "app.*" []).covers_segments happle).2.2 "app" [] 'l' ['e'] (by decide) rfl
  exact ⟨hmodel, ((mk "app.*" []).covers_segments hmodel).1.1 hcovers, happle, hletters.1⟩

end PackageRule

end MemberAccess.Rule
