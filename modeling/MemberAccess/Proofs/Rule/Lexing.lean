import MemberAccess.Rule.Token

/-!
# The tokens a rule text splits into

What the tokens of a text are can be said without a scan: the text falls apart into white space, comments up
to the end of their line, punctuation signs, and names that are as long as they can be. White space comes
first: no token starts with it.

* `Lexes`: a text splits into tokens.
* `Mode.Splits`: the same for the rest of a text, in the middle of a comment or of a name.
* `lexes_cons_iff`: the split from one more character on is what the character begins.
* `scans_iff`: a scan reaches the end of a text exactly when the text splits, with the tokens of the split.
* `length_scan_le`: a scan finds no more tokens than there are characters.
-/

namespace MemberAccess.Rule

/-- What opens a comment. -/
def commentMarks : List (List Char) := [['#'], ['/', '/']]

/-- The text stops here, or its line does. -/
def EndsLine (rest : List Char) : Prop := ∀ c ∈ rest.head?, c = '\n'

/-- The text does not go on with a character of a name. -/
def EndsName (rest : List Char) : Prop := ∀ c ∈ rest.head?, isNameChar c = false

/-- A text splits into tokens. -/
inductive Lexes : List Char → List Token → Prop where
  | done : Lexes [] []
  | blank {c rest ts} (hc : Text.isBlank c = true) (h : Lexes rest ts) : Lexes (c :: rest) ts
  | comment {mark body rest ts} (hmark : mark ∈ commentMarks) (hbody : '\n' ∉ body) (hend : EndsLine rest)
      (h : Lexes rest ts) : Lexes (mark ++ (body ++ rest)) ts
  | sign {c t rest ts} (hc : punctuation? c = some t) (h : Lexes rest ts) : Lexes (c :: rest) (t :: ts)
  | name {first word rest ts} (hfirst : Text.isBlank first = false)
      (hword : ∀ c ∈ first :: word, isNameChar c = true) (hend : EndsName rest) (h : Lexes rest ts) :
      Lexes (first :: (word ++ rest)) (.name (String.ofList (first :: word)) :: ts)

/-- A comment that is open runs to the end of its line, and the text splits from there on. -/
def SplitsComment (cs : List Char) (ts : List Token) : Prop :=
  ∃ body rest, cs = body ++ rest ∧ '\n' ∉ body ∧ EndsLine rest ∧ Lexes rest ts

/-- The rest of a text splits into tokens, in the middle of what a scan has begun. -/
def Mode.Splits : Mode → List Char → List Token → Prop
  | .between, cs, ts => Lexes cs ts
  | .comment, cs, ts => SplitsComment cs ts
  | .slash _, cs, ts => ∃ rest, cs = '/' :: rest ∧ SplitsComment rest ts
  | .name _ read, cs, ts => ∃ word rest more, cs = word ++ rest ∧ (∀ c ∈ word, isNameChar c = true) ∧
      EndsName rest ∧ Lexes rest more ∧ ts = .name (String.ofList (read.reverse ++ word)) :: more

/-- A scan of the rest of a text reaches its end, with those tokens. -/
def Mode.Scans (mode : Mode) (p : Position) (cs : List Char) (ts : List Token) : Prop :=
  ∃ lexemes q, scanFrom mode p cs = (lexemes, .finish q) ∧ lexemes.map (·.token) = ts

variable {c : Char} {p : Position} {rest : List Char} {t : Token} {ts : List Token}

theorem endsLine_nil : EndsLine [] := by simp [EndsLine]

theorem endsLine_cons : EndsLine (c :: rest) ↔ c = '\n' := by simp [EndsLine]

theorem endsName_nil : EndsName [] := by simp [EndsName]

theorem endsName_cons : EndsName (c :: rest) ↔ isNameChar c = false := by simp [EndsName]

/-! ## What a character begins -/

/-- A punctuation sign is nothing else. -/
theorem begin_of_punctuation (h : punctuation? c = some t) : begin p c = .ok ([⟨t, p⟩], .between) := by
  unfold punctuation? at h
  split at h <;> first | (cases h; rfl) | cases h

/-- A character of a name is no punctuation sign and opens no comment. -/
theorem begin_of_isNameChar (hblank : Text.isBlank c = false) (h : isNameChar c = true) :
    begin p c = .ok ([], .name p [c]) := by
  have hmark : ∀ d, isNameChar d = false → c ≠ d := by
    rintro d hd rfl
    rw [h] at hd
    cases hd
  have hsign : punctuation? c = none := by
    unfold punctuation?
    split <;> first | rfl | exact absurd rfl (hmark _ (by decide +kernel))
  have hhash : c ≠ '#' := hmark _ (by decide +kernel)
  have hslash : c ≠ '/' := hmark _ (by decide +kernel)
  simp [begin, hblank, hhash, hslash, hsign, h]

theorem begin_of_isBlank (h : Text.isBlank c = true) : begin p c = .ok ([], .between) := by simp [begin, h]

/-- The split from one more character on is what the character begins. -/
theorem lexes_cons_iff (p : Position) : Lexes (c :: rest) ts ↔
    ∃ begun next more, begin p c = .ok (begun, next) ∧ ts = begun.map (·.token) ++ more ∧
      next.Splits rest more := by
  constructor
  · generalize hcs : c :: rest = cs
    intro h
    cases h with
    | done => cases hcs
    | blank hc h =>
      cases hcs
      exact ⟨_, _, _, begin_of_isBlank hc, rfl, h⟩
    | @comment mark body after _ hmark hbody hend h =>
      have hafter : SplitsComment (body ++ after) ts := ⟨body, after, rfl, hbody, hend, h⟩
      simp only [commentMarks, List.mem_cons, List.not_mem_nil, or_false] at hmark
      rcases hmark with rfl | rfl
      · cases hcs
        exact ⟨[], .comment, ts, rfl, rfl, hafter⟩
      · cases hcs
        exact ⟨[], .slash p, ts, rfl, rfl, _, rfl, hafter⟩
    | sign hc h =>
      cases hcs
      exact ⟨_, _, _, begin_of_punctuation hc, rfl, h⟩
    | name hfirst hword hend h =>
      cases hcs
      have hbegin := begin_of_isNameChar (p := p) hfirst (hword c List.mem_cons_self)
      have hrest := fun d hd => hword d (List.mem_cons_of_mem c hd)
      exact ⟨_, _, _, hbegin, rfl, _, _, _, rfl, hrest, hend, h, rfl⟩
  · rintro ⟨begun, next, more, hbegin, rfl, hnext⟩
    unfold begin at hbegin
    split at hbegin
    · rename_i hblank
      cases hbegin
      exact .blank hblank hnext
    rename_i hblank
    split at hbegin
    · rename_i hhash
      cases hbegin
      obtain ⟨body, after, rfl, hbody, hend, h⟩ := hnext
      rw [hhash]
      exact .comment List.mem_cons_self hbody hend h
    split at hbegin
    · rename_i hslash
      cases hbegin
      obtain ⟨_, rfl, body, after, rfl, hbody, hend, h⟩ := hnext
      rw [hslash]
      exact .comment (List.mem_cons_of_mem _ List.mem_cons_self) hbody hend h
    split at hbegin
    · rename_i t hsign
      cases hbegin
      exact .sign hsign hnext
    split at hbegin
    · rename_i hname
      cases hbegin
      obtain ⟨word, after, more, rfl, hword, hend, h, rfl⟩ := hnext
      have hall : ∀ d ∈ c :: word, isNameChar d = true := by
        simpa [hname] using hword
      exact .name (by simpa using hblank) hall hend h
    · cases hbegin

/-! ## Comments and names, one character at a time -/

theorem lexes_newline_iff : Lexes ('\n' :: rest) ts ↔ Lexes rest ts := by
  rw [lexes_cons_iff .start]
  constructor
  · rintro ⟨_, _, more, hbegin, rfl, h⟩
    cases hbegin
    exact h
  · intro h
    exact ⟨[], .between, ts, rfl, rfl, h⟩

/-- A comment goes on to the end of its line, and white space follows it. -/
theorem splitsComment_cons_iff : SplitsComment (c :: rest) ts ↔
    (if c = '\n' then Mode.between else .comment).Splits rest ts := by
  split
  · rename_i hc
    subst hc
    constructor
    · rintro ⟨body, after, hcs, hbody, hend, h⟩
      cases body with
      | nil => exact lexes_newline_iff.1 (hcs ▸ h)
      | cons d body =>
        cases hcs
        exact absurd List.mem_cons_self hbody
    · intro h
      exact ⟨[], _, rfl, List.not_mem_nil, endsLine_cons.2 rfl, lexes_newline_iff.2 h⟩
  · rename_i hc
    constructor
    · rintro ⟨body, after, hcs, hbody, hend, h⟩
      cases body with
      | nil =>
        rw [List.nil_append] at hcs
        subst hcs
        exact absurd (endsLine_cons.1 hend) hc
      | cons d body =>
        cases hcs
        exact ⟨body, after, rfl, fun hmem => hbody (List.mem_cons_of_mem c hmem), hend, h⟩
    · rintro ⟨body, after, rfl, hbody, hend, h⟩
      refine ⟨c :: body, after, rfl, ?_, hend, h⟩
      rw [List.mem_cons]
      rintro (hnew | hmem)
      · exact hc hnew.symm
      · exact hbody hmem

/-- A name goes on as long as it can. -/
theorem splits_name_cons_iff {read : List Char} : (Mode.name p read).Splits (c :: rest) ts ↔
    if isNameChar c = true then (Mode.name p (c :: read)).Splits rest ts
    else ∃ more, ts = .name (String.ofList read.reverse) :: more ∧ Lexes (c :: rest) more := by
  split
  · rename_i hc
    constructor
    · rintro ⟨word, after, more, hcs, hword, hend, h, rfl⟩
      cases word with
      | nil =>
        rw [List.nil_append] at hcs
        subst hcs
        rw [endsName_cons, hc] at hend
        cases hend
      | cons d word =>
        cases hcs
        refine ⟨word, after, more, rfl, fun d hd => hword d (List.mem_cons_of_mem c hd), hend, h, ?_⟩
        rw [List.reverse_cons, List.append_assoc, List.singleton_append]
    · rintro ⟨word, after, more, rfl, hword, hend, h, rfl⟩
      refine ⟨c :: word, after, more, rfl, by simpa [hc] using hword, hend, h, ?_⟩
      rw [List.reverse_cons, List.append_assoc, List.singleton_append]
  · rename_i hc
    constructor
    · rintro ⟨word, after, more, hcs, hword, hend, h, rfl⟩
      cases word with
      | nil =>
        rw [List.nil_append] at hcs
        exact ⟨more, by rw [List.append_nil], hcs ▸ h⟩
      | cons d word =>
        cases hcs
        exact absurd (hword c List.mem_cons_self) hc
    · rintro ⟨more, rfl, h⟩
      refine ⟨[], c :: rest, more, rfl, by simp, endsName_cons.2 (by simpa using hc), h, ?_⟩
      rw [List.append_nil]

/-! ## The end of a text -/

theorem lexes_nil_iff : Lexes [] ts ↔ ts = [] := by
  constructor
  · generalize hcs : [] = cs
    intro h
    cases h with
    | done => rfl
    | @comment mark body after _ hmark _ _ _ =>
      -- a comment has its mark at least
      simp only [commentMarks, List.mem_cons, List.not_mem_nil, or_false] at hmark
      rcases hmark with rfl | rfl <;> cases hcs
    | blank | sign | name => cases hcs
  · rintro rfl
    exact .done

theorem splitsComment_nil_iff : SplitsComment [] ts ↔ ts = [] := by
  constructor
  · rintro ⟨body, after, hcs, -, -, h⟩
    rw [(List.append_eq_nil_iff.1 hcs.symm).2] at h
    exact lexes_nil_iff.1 h
  · rintro rfl
    exact ⟨[], [], rfl, List.not_mem_nil, endsLine_nil, .done⟩

theorem splits_name_nil_iff {read : List Char} :
    (Mode.name p read).Splits [] ts ↔ ts = [.name (String.ofList read.reverse)] := by
  constructor
  · rintro ⟨word, after, more, hcs, -, -, h, rfl⟩
    obtain ⟨rfl, rfl⟩ := List.append_eq_nil_iff.1 hcs.symm
    rw [lexes_nil_iff.1 h, List.append_nil]
  · rintro rfl
    exact ⟨[], [], [], rfl, by simp, endsName_nil, .done, by rw [List.append_nil]⟩

/-! ## Scans -/

variable {mode : Mode}

theorem scans_nil_iff : mode.Scans p [] ts ↔ mode.Splits [] ts := by
  cases mode with
  | between => simp [Mode.Scans, scanFrom, Mode.pending, Mode.Splits, lexes_nil_iff, eq_comm]
  | comment => simp [Mode.Scans, scanFrom, Mode.pending, Mode.Splits, splitsComment_nil_iff, eq_comm]
  | slash => simp [Mode.Scans, scanFrom, Mode.Splits]
  | name => simp [Mode.Scans, scanFrom, Mode.pending, splits_name_nil_iff, eq_comm]

/-- What a scan finds from a character outside comments and names on, behind the tokens it has. -/
def scanOn (done : List Lexeme) (p : Position) (c : Char) (rest : List Char) : List Lexeme × Ending :=
  match begin p c with
  | .error f => (done, .broken p f)
  | .ok (begun, next) =>
    (done ++ begun ++ (scanFrom next (p.after c) rest).1, (scanFrom next (p.after c) rest).2)

theorem scanFrom_between : scanFrom .between p (c :: rest) = scanOn [] p c rest := rfl

theorem scanFrom_name {start : Position} {read : List Char} : scanFrom (.name start read) p (c :: rest) =
    if isNameChar c then scanFrom (.name start (c :: read)) (p.after c) rest
    else scanOn (Mode.name start read).pending p c rest := rfl

theorem scanOn_finish_iff {done : List Lexeme} :
    (∃ lexemes q, scanOn done p c rest = (lexemes, .finish q) ∧ lexemes.map (·.token) = ts) ↔
      ∃ begun next more, begin p c = .ok (begun, next) ∧ next.Scans (p.after c) rest more ∧
        ts = done.map (·.token) ++ (begun.map (·.token) ++ more) := by
  unfold scanOn
  cases begin p c with
  | error f => simp
  | ok result =>
    obtain ⟨begun, next⟩ := result
    constructor
    · rintro ⟨lexemes, q, hscan, rfl⟩
      obtain ⟨rfl, hend⟩ := Prod.mk.inj hscan
      refine ⟨begun, next, _, rfl, ⟨_, q, Prod.ext rfl hend, rfl⟩, ?_⟩
      rw [List.map_append, List.map_append, List.append_assoc]
    · rintro ⟨_, _, more, hok, ⟨lexemes, q, hscan, rfl⟩, rfl⟩
      cases hok
      refine ⟨done ++ begun ++ lexemes, q, by simp only [hscan], ?_⟩
      rw [List.map_append, List.map_append, List.append_assoc]

/-- **A scan reaches the end of a text exactly when the text splits**, and its tokens are those of the split. -/
theorem scans_iff {cs : List Char} : mode.Scans p cs ts ↔ mode.Splits cs ts := by
  induction cs generalizing mode p ts with
  | nil => exact scans_nil_iff
  | cons c rest ih =>
    -- outside comments and names, the character begins something
    have hon (done : List Lexeme) :
        (∃ lexemes q, scanOn done p c rest = (lexemes, .finish q) ∧ lexemes.map (·.token) = ts) ↔
          ∃ more, ts = done.map (·.token) ++ more ∧ Lexes (c :: rest) more := by
      simp only [scanOn_finish_iff, ih, lexes_cons_iff p]
      constructor
      · rintro ⟨begun, next, more, hbegin, h, rfl⟩
        exact ⟨_, rfl, begun, next, more, hbegin, rfl, h⟩
      · rintro ⟨_, rfl, begun, next, more, hbegin, rfl, h⟩
        exact ⟨begun, next, more, hbegin, h, rfl⟩
    cases mode with
    | between =>
      unfold Mode.Scans
      rw [scanFrom_between, hon]
      simp [Mode.Splits]
    | comment =>
      refine Iff.trans ?_ splitsComment_cons_iff.symm
      exact ih (p := p.after c)
    | slash start =>
      by_cases hc : c = '/'
      · subst hc
        have hcomment : Mode.comment.Scans (p.after '/') rest ts ↔ SplitsComment rest ts := ih
        simpa [Mode.Scans, scanFrom, Mode.Splits] using hcomment
      · simp [Mode.Scans, scanFrom, Mode.Splits, hc]
    | name start read =>
      rw [splits_name_cons_iff]
      unfold Mode.Scans
      rw [scanFrom_name]
      split
      · exact ih
      · exact hon _

/-- A text scans to its end with the tokens it splits into. -/
theorem scan_finish_iff {text : String} :
    (∃ lexemes q, scan text = (lexemes, .finish q) ∧ lexemes.map (·.token) = ts) ↔ Lexes text.toList ts :=
  (scans_iff : Mode.between.Scans .start text.toList ts ↔ Lexes text.toList ts)

/-! ## How long a scan is -/

/-- A character begins one token at most. -/
theorem length_begin_le {begun : List Lexeme} {next : Mode} (h : begin p c = .ok (begun, next)) :
    begun.length + next.pending.length ≤ 1 := by
  unfold begin at h
  repeat' split at h
  all_goals cases h
  all_goals simp [Mode.pending]

theorem length_scanFrom_le (mode : Mode) (p : Position) (cs : List Char) :
    (scanFrom mode p cs).1.length ≤ mode.pending.length + cs.length := by
  induction cs generalizing mode p with
  | nil => cases mode <;> simp [scanFrom, Mode.pending]
  | cons c rest ih =>
    have hon (done : List Lexeme) : (scanOn done p c rest).1.length ≤ done.length + (rest.length + 1) := by
      unfold scanOn
      split
      · simp
      · rename_i begun next hbegin
        have hbegun := length_begin_le hbegin
        have hmore := ih next (p.after c)
        simp only [List.length_append]
        omega
    rw [List.length_cons]
    cases mode with
    | between => exact hon []
    | comment =>
      have hrest := ih (if c = '\n' then .between else .comment) (p.after c)
      have hheld : (if c = '\n' then Mode.between else .comment).pending = [] := by split <;> rfl
      rw [hheld] at hrest
      exact Nat.le_succ_of_le hrest
    | slash start =>
      by_cases hc : c = '/'
      · subst hc
        exact Nat.le_succ_of_le (ih .comment (p.after '/'))
      · simp [scanFrom, hc]
    | name start read =>
      rw [scanFrom_name]
      split
      · exact Nat.le_succ_of_le (ih (.name start (c :: read)) (p.after c))
      · exact hon _

/-- A text has no more tokens than characters. -/
theorem length_scan_le (text : String) : (scan text).1.length ≤ text.length := by
  have h := length_scanFrom_le .between .start text.toList
  rw [String.length_toList] at h
  exact Nat.le_trans h (by simp [Mode.pending])

end MemberAccess.Rule
