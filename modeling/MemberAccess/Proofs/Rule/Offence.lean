import MemberAccess.Proofs.Rule.Insertion

/-!
# Where a rule text goes wrong

A text that is no rule text is refused with a position, and it is the position of the first thing that is wrong: of the
token after which nothing can be written any more that makes it a rule text, of a character that begins nothing, or of
the end of a text that stops too early. None of this needs a reading to be said.

* `Position.behind`: the position behind some characters.
* `Fronts`: the tokens of a text up to a place where no comment and no name goes on.
* `Starts`, `Stray`: what begins at such a place, and what begins nothing.
* `Opens`: tokens that a rule text can begin with; `opens_iff`: these are the ones that lead to some place.
* `Offence`: where a text goes wrong.
* `scanFrom_front`: the scan of a text up to such a place.
* `compose_error_iff`: a text is refused at its offence.
-/

namespace MemberAccess.Rule

/-- The position behind characters: its line is one more than there are line ends, its column one more than there are
characters since the last of them. -/
def Position.behind (read : List Char) : Position :=
  ⟨read.count '\n' + 1, (read.reverse.takeWhile (· ≠ '\n')).length + 1⟩

/-- A text splits into tokens up to the rest of it, and neither a comment nor a name of them goes on there. -/
inductive Fronts (rest : List Char) : List Char → List Token → Prop where
  | done : Fronts rest [] []
  | blank {c before ts} (hc : Text.isBlank c = true) (h : Fronts rest before ts) : Fronts rest (c :: before) ts
  | comment {mark body before ts} (hmark : mark ∈ commentMarks) (hbody : '\n' ∉ body)
      (hend : EndsLine (before ++ rest)) (h : Fronts rest before ts) : Fronts rest (mark ++ (body ++ before)) ts
  | sign {c t before ts} (hc : punctuation? c = some t) (h : Fronts rest before ts) :
      Fronts rest (c :: before) (t :: ts)
  | name {first word before ts} (hfirst : Text.isBlank first = false)
      (hword : ∀ c ∈ first :: word, isNameChar c = true) (hend : EndsName (before ++ rest))
      (h : Fronts rest before ts) :
      Fronts rest (first :: (word ++ before)) (.name (String.ofList (first :: word)) :: ts)

/-- A text starts with a token: with a punctuation sign, or with a name that is as long as it can be. -/
inductive Starts : List Char → Token → Prop where
  | sign {c t rest} (hc : punctuation? c = some t) : Starts (c :: rest) t
  | name {first word rest} (hfirst : Text.isBlank first = false)
      (hword : ∀ c ∈ first :: word, isNameChar c = true) (hend : EndsName rest) :
      Starts (first :: (word ++ rest)) (.name (String.ofList (first :: word)))

/-- A character at which nothing starts: it is no white space, and no comment and no token begins with it. -/
structure Stray (c : Char) (rest : List Char) : Prop where
  blank : Text.isBlank c = false
  comment : ∀ mark ∈ commentMarks, ¬mark <+: c :: rest
  token : ∀ t, ¬Starts (c :: rest) t

/-- Tokens that a rule text can begin with. -/
def Opens (ts : List Token) : Prop :=
  ∃ (text : String) (more : List Token) (rules : List PackageRule),
    Lexes text.toList (ts ++ more) ∧ readRules text = .ok rules

/-- **Where a text goes wrong.** -/
inductive Offence (text : String) : Position → Prop where
  /-- at a token, when a rule text can begin with those before it, but not with this one as well -/
  | token {before rest ts t} (htext : text.toList = before ++ rest) (hfront : Fronts rest before ts)
      (hstarts : Starts rest t) (hopens : Opens ts) (hnot : ¬Opens (ts ++ [t])) : Offence text (.behind before)
  /-- at a character outside comments and names that begins nothing, when no token before it is wrong -/
  | character {before c rest ts} (htext : text.toList = before ++ c :: rest) (hfront : Fronts (c :: rest) before ts)
      (hstray : Stray c rest) (hopens : Opens ts) : Offence text (.behind before)
  /-- at its end, when a rule text can begin with its tokens, but it is none yet -/
  | ending {ts} (hlexes : Lexes text.toList ts) (hopens : Opens ts) (hnot : ∀ rules, readRules text ≠ .ok rules) :
      Offence text (.behind text.toList)

variable {before before' rest cs word body : List Char} {ts us : List Token} {t : Token} {c : Char} {p : Position}
  {text : String} {rules : List PackageRule}

/-! ## Positions -/

theorem behind_concat (read : List Char) (c : Char) :
    Position.behind (read ++ [c]) = (Position.behind read).after c := by
  unfold Position.behind Position.after
  split
  · rename_i hc
    simp [hc]
  · rename_i hc
    simp [hc]

theorem foldl_after (read : List Char) : read.foldl Position.after .start = .behind read := by
  induction read using List.reverseRecOn with
  | nil => rfl
  | append_singleton read c ih => rw [List.foldl_concat, ih, behind_concat]

/-! ## Fronts -/

theorem fronts_nil_iff : Fronts [] cs ts ↔ Lexes cs ts := by
  constructor
  · intro h
    induction h with
    | done => exact .done
    | blank hc _ ih => exact .blank hc ih
    | comment hmark hbody hend _ ih => exact .comment hmark hbody (by simpa using hend) ih
    | sign hc _ ih => exact .sign hc ih
    | name hfirst hword hend _ ih => exact .name hfirst hword (by simpa using hend) ih
  · intro h
    induction h with
    | done => exact .done
    | blank hc _ ih => exact .blank hc ih
    | comment hmark hbody hend _ ih => exact .comment hmark hbody (by simpa using hend) ih
    | sign hc _ ih => exact .sign hc ih
    | name hfirst hword hend _ ih => exact .name hfirst hword (by simpa using hend) ih

/-- What lies before such a place is a text of its own. -/
theorem Fronts.lexes (h : Fronts rest before ts) : Lexes before ts := by
  induction h with
  | done => exact .done
  | blank hc _ ih => exact .blank hc ih
  | comment hmark hbody hend _ ih => exact .comment hmark hbody hend.of_append ih
  | sign hc _ ih => exact .sign hc ih
  | name hfirst hword hend _ ih => exact .name hfirst hword hend.of_append ih

theorem Fronts.append (h : Fronts (before' ++ rest) before ts) (h' : Fronts rest before' us) :
    Fronts rest (before ++ before') (ts ++ us) := by
  induction h with
  | done => exact h'
  | blank hc _ ih => exact .blank hc ih
  | comment hmark hbody hend _ ih =>
    rw [List.append_assoc, List.append_assoc]
    exact .comment hmark hbody (by rwa [List.append_assoc]) ih
  | sign hc _ ih => exact .sign hc ih
  | name hfirst hword hend _ ih =>
    rw [List.cons_append, List.append_assoc]
    exact .name hfirst hword (by rwa [List.append_assoc]) ih

/-- A token that a text starts with is a front of it. -/
theorem Starts.front (h : Starts cs t) : ∃ word rest, cs = word ++ rest ∧ word ≠ [] ∧ Fronts rest word [t] := by
  cases h with
  | @sign c t rest hc => exact ⟨[c], rest, rfl, List.cons_ne_nil _ _, .sign hc .done⟩
  | @name first word rest hfirst hword hend =>
    refine ⟨first :: word, rest, rfl, List.cons_ne_nil _ _, ?_⟩
    have h : Fronts rest (first :: (word ++ [])) [.name (String.ofList (first :: word))] :=
      .name hfirst hword hend .done
    rwa [List.append_nil] at h

/-- A comment runs to the end of its line. -/
theorem exists_comment {mark : List Char} (hmark : mark ∈ commentMarks) (h : mark <+: cs) :
    ∃ comment rest, cs = comment ++ rest ∧ comment ≠ [] ∧ Fronts rest comment [] := by
  obtain ⟨after, rfl⟩ := h
  let body := after.takeWhile (· ≠ '\n')
  have hbody : '\n' ∉ body := by
    intro hmem
    simpa using List.all_eq_true.1 List.all_takeWhile '\n' hmem
  have hend : EndsLine (after.dropWhile (· ≠ '\n')) := by
    intro c hc
    have hnot := List.head?_dropWhile_not (· ≠ '\n') after
    rw [Option.mem_def.1 hc] at hnot
    simpa using hnot
  refine ⟨mark ++ (body ++ []), after.dropWhile (· ≠ '\n'), ?_, ?_, .comment hmark hbody hend .done⟩
  · simp [body, List.takeWhile_append_dropWhile]
  · simp only [commentMarks, List.mem_cons, List.not_mem_nil, or_false] at hmark
    rcases hmark with rfl | rfl <;> simp

/-- A character of a name that is no white space starts a name. -/
theorem exists_starts_name (hblank : Text.isBlank c = false) (hc : isNameChar c = true) (rest : List Char) :
    ∃ t, Starts (c :: rest) t := by
  have hend : EndsName (rest.dropWhile isNameChar) := by
    intro d hd
    have hnot := List.head?_dropWhile_not isNameChar rest
    rwa [Option.mem_def.1 hd] at hnot
  have hword : ∀ d ∈ c :: rest.takeWhile isNameChar, isNameChar d = true := by
    intro d hd
    rcases List.mem_cons.1 hd with rfl | hd
    · exact hc
    · exact List.all_eq_true.1 List.all_takeWhile d hd
  have h := Starts.name hblank hword hend
  rw [List.takeWhile_append_dropWhile] at h
  exact ⟨_, h⟩

/-! ## Scans -/

theorem scanOn_eq_append (done : List Lexeme) (p : Position) (c : Char) (rest : List Char) :
    scanOn done p c rest = (done ++ (scanOn [] p c rest).1, (scanOn [] p c rest).2) := by
  unfold scanOn
  cases begin p c <;> simp

theorem scanFrom_of_begin {begun : List Lexeme} {next : Mode} (h : begin p c = .ok (begun, next)) (rest : List Char) :
    scanFrom .between p (c :: rest) =
      (begun ++ (scanFrom next (p.after c) rest).1, (scanFrom next (p.after c) rest).2) := by
  rw [scanFrom_between]
  unfold scanOn
  rw [h]
  rfl

theorem scanFrom_comment_append (hbody : '\n' ∉ body) (hend : EndsLine cs) (p : Position) :
    scanFrom .comment p (body ++ cs) = scanFrom .between (body.foldl Position.after p) cs := by
  induction body generalizing p with
  | nil =>
    cases cs with
    | nil => rfl
    | cons c rest =>
      obtain rfl := endsLine_cons.1 hend
      rfl
  | cons c body ih =>
    obtain ⟨hc, hrest⟩ := not_or.1 (mt List.mem_cons.2 hbody)
    have hstep : scanFrom .comment p (c :: (body ++ cs)) = scanFrom .comment (p.after c) (body ++ cs) := by
      simp [scanFrom, Ne.symm hc]
    rw [List.cons_append, hstep, ih hrest, List.foldl_cons]

theorem scanFrom_name_append (hword : ∀ c ∈ word, isNameChar c = true) (hend : EndsName cs) (start p : Position)
    (read : List Char) : scanFrom (.name start read) p (word ++ cs) =
      (⟨.name (String.ofList (read.reverse ++ word)), start⟩ ::
        (scanFrom .between (word.foldl Position.after p) cs).1,
        (scanFrom .between (word.foldl Position.after p) cs).2) := by
  induction word generalizing p read with
  | nil =>
    cases cs with
    | nil => simp [scanFrom, Mode.pending]
    | cons c rest =>
      have hc := endsName_cons.1 hend
      rw [List.nil_append, scanFrom_name, if_neg (by simp [hc]), scanOn_eq_append, List.foldl_nil, scanFrom_between,
        List.append_nil]
      rfl
  | cons c word ih =>
    have hc := hword c List.mem_cons_self
    rw [List.cons_append, scanFrom_name, if_pos hc, ih (fun d hd => hword d (List.mem_cons_of_mem c hd)),
      List.foldl_cons, List.reverse_cons, List.append_assoc, List.singleton_append]

/-- **The scan of a text up to a place** gives the tokens before it, and goes on from there. -/
theorem scanFrom_front (h : Fronts rest before ts) (p : Position) : ∃ lexemes, lexemes.map (·.token) = ts ∧
    scanFrom .between p (before ++ rest) =
      (lexemes ++ (scanFrom .between (before.foldl Position.after p) rest).1,
        (scanFrom .between (before.foldl Position.after p) rest).2) := by
  induction h generalizing p with
  | done => exact ⟨[], rfl, rfl⟩
  | @blank c before ts hc _ ih =>
    obtain ⟨lexemes, htokens, hscan⟩ := ih (p.after c)
    refine ⟨lexemes, htokens, ?_⟩
    rw [List.cons_append, scanFrom_of_begin (begin_of_isBlank hc), hscan, List.foldl_cons]
    rfl
  | @comment mark body before ts hmark hbody hend _ ih =>
    obtain ⟨lexemes, htokens, hscan⟩ := ih ((mark ++ body).foldl Position.after p)
    refine ⟨lexemes, htokens, ?_⟩
    have hopen : scanFrom .between p (mark ++ (body ++ (before ++ rest))) =
        scanFrom .comment (mark.foldl Position.after p) (body ++ (before ++ rest)) := by
      simp only [commentMarks, List.mem_cons, List.not_mem_nil, or_false] at hmark
      rcases hmark with rfl | rfl <;> rfl
    rw [List.append_assoc, List.append_assoc, hopen, scanFrom_comment_append hbody hend, ← List.foldl_append, hscan,
      ← List.append_assoc, List.foldl_append (l := mark ++ body)]
  | @sign c t before ts hc _ ih =>
    obtain ⟨lexemes, htokens, hscan⟩ := ih (p.after c)
    refine ⟨⟨t, p⟩ :: lexemes, by rw [List.map_cons, htokens], ?_⟩
    rw [List.cons_append, scanFrom_of_begin (begin_of_punctuation hc), hscan, List.foldl_cons]
    rfl
  | @name first word before ts hfirst hword hend _ ih =>
    obtain ⟨lexemes, htokens, hscan⟩ := ih (word.foldl Position.after (p.after first))
    have hrest := fun d hd => hword d (List.mem_cons_of_mem first hd)
    refine ⟨⟨.name (String.ofList (first :: word)), p⟩ :: lexemes, by rw [List.map_cons, htokens], ?_⟩
    have hbegin := begin_of_isNameChar (p := p) hfirst (hword first List.mem_cons_self)
    rw [List.cons_append, List.append_assoc, scanFrom_of_begin hbegin, scanFrom_name_append hrest hend, hscan,
      List.foldl_cons, List.foldl_append]
    rfl

/-- A token that a text starts with is the first of its scan. -/
theorem Starts.scanFrom (h : Starts cs t) (p : Position) :
    ∃ more ending, scanFrom .between p cs = (⟨t, p⟩ :: more, ending) := by
  cases h with
  | sign hc => exact ⟨_, _, scanFrom_of_begin (begin_of_punctuation hc) _⟩
  | @name first word rest hfirst hword hend =>
    have hrest := fun d hd => hword d (List.mem_cons_of_mem first hd)
    have hbegin := begin_of_isNameChar (p := p) hfirst (hword first List.mem_cons_self)
    have hscan := scanFrom_of_begin hbegin (word ++ rest)
    rw [scanFrom_name_append hrest hend] at hscan
    exact ⟨_, _, hscan⟩

/-- The scan ends where nothing starts. -/
theorem Stray.scanFrom (h : Stray c rest) (p : Position) :
    ∃ f, scanFrom .between p (c :: rest) = ([], .broken p f) := by
  have hhash : c ≠ '#' := by
    rintro rfl
    exact h.comment ['#'] List.mem_cons_self ⟨rest, rfl⟩
  by_cases hslash : c = '/'
  · subst hslash
    have hbegin : begin p '/' = .ok ([], .slash p) := rfl
    rw [scanFrom_of_begin hbegin]
    cases rest with
    | nil => exact ⟨_, rfl⟩
    | cons d rest =>
      have hd : d ≠ '/' := by
        rintro rfl
        exact h.comment ['/', '/'] (List.mem_cons_of_mem _ List.mem_cons_self) ⟨rest, rfl⟩
      exact ⟨.loneSlash, by simp [Rule.scanFrom, hd]⟩
  · have hsign : punctuation? c = none := by
      cases hc : punctuation? c with
      | none => rfl
      | some t => exact absurd (.sign hc) (h.token t)
    have hname : isNameChar c = false := by
      cases hc : isNameChar c with
      | false => rfl
      | true =>
        obtain ⟨t, ht⟩ := exists_starts_name h.blank hc rest
        exact absurd ht (h.token t)
    refine ⟨.strayCharacter c, ?_⟩
    rw [scanFrom_between]
    unfold scanOn begin
    simp [h.blank, hhash, hslash, hsign, hname]

/-! ## What rule texts begin with -/

/-- Reading goes on behind tokens that fit. -/
theorem run_append {s s' : Reading} {lexemes : List Lexeme} (h : s.steps (lexemes.map (·.token)) = some s')
    (ending : Ending) (more : List Lexeme) : s.run ending (lexemes ++ more) = s'.run ending more := by
  induction lexemes generalizing s with
  | nil =>
    cases h
    rfl
  | cons l rest ih =>
    rw [List.map_cons] at h
    unfold Reading.steps at h
    rw [List.foldlM_cons, Option.bind_eq_bind, Option.bind_eq_some_iff] at h
    obtain ⟨next, hstep, hrest⟩ := h
    rw [List.cons_append, Reading.run, hstep]
    exact ih hrest

/-- A text that splits into tokens is read when they lead to the outside. -/
theorem readRules_iff_steps (h : Lexes text.toList ts) :
    readRules text = .ok rules ↔ Reading.steps {} ts = some ⟨rules, .outside⟩ := by
  obtain ⟨lexemes, q, hscan, rfl⟩ := scan_finish_iff.2 h
  unfold readRules
  rw [hscan, run_eq_ok_iff]
  exact ⟨fun h => h.2, fun h => ⟨⟨q, rfl⟩, h⟩⟩

/-- Signs that lead from a place to the outside. -/
def Place.closing : Place → List Char
  | .outside => []
  | .packageNamed _ => ['\x7b', '\x7d']
  | .inPackage .. => ['\x7d']
  | .classNamed .. => ['\x7b', '\x7d', '\x7d']
  | .inClass .. => ['\x7d', '\x7d']
  | .memberNamed .. => [';', '\x7d', '\x7d']
  | .inParens .. => [')', ';', '\x7d', '\x7d']
  | .afterParens .. => [';', '\x7d', '\x7d']

theorem lexes_closing (place : Place) : ∃ ts, Lexes place.closing ts ∧
    ∀ done, ∃ rules, Reading.steps ⟨done, place⟩ ts = some ⟨rules, .outside⟩ := by
  have hsigns : ∀ cs : List Char, (∀ c ∈ cs, punctuation? c ≠ none) → Lexes cs (cs.filterMap punctuation?) := by
    intro cs hcs
    induction cs with
    | nil => exact .done
    | cons c rest ih =>
      obtain ⟨t, ht⟩ := Option.ne_none_iff_exists'.1 (hcs c List.mem_cons_self)
      rw [List.filterMap_cons_some ht]
      exact .sign ht (ih fun d hd => hcs d (List.mem_cons_of_mem c hd))
  refine ⟨_, hsigns place.closing ?_, fun done => ?_⟩
  · cases place <;> simp [Place.closing, punctuation?]
  · cases place <;> exact ⟨_, rfl⟩

/-- **A rule text can begin with tokens** exactly when they all fit: from every place there is a way to the outside. -/
theorem opens_iff (h : Lexes cs ts) : Opens ts ↔ ∃ s, Reading.steps {} ts = some s := by
  constructor
  · rintro ⟨text, more, rules, htext, hread⟩
    have hsteps := (readRules_iff_steps htext).1 hread
    rw [steps_append, Option.bind_eq_some_iff] at hsteps
    obtain ⟨s, hs, -⟩ := hsteps
    exact ⟨s, hs⟩
  · rintro ⟨⟨done, place⟩, hs⟩
    obtain ⟨more, hmore, hclosing⟩ := lexes_closing place
    obtain ⟨rules, hrules⟩ := hclosing done
    have htext : Lexes (String.ofList (cs ++ '\n' :: place.closing)).toList (ts ++ more) := by
      rw [String.toList_ofList]
      exact h.append_line hmore
    refine ⟨_, more, rules, htext, (readRules_iff_steps htext).2 ?_⟩
    rw [steps_append, hs]
    exact hrules

/-! ## Offences -/

/-- **A text is refused at its offence.** -/
theorem Offence.error (h : Offence text p) : ∃ e, readRules text = .error e ∧ e.position = p := by
  unfold readRules scan
  cases h with
  | @token before rest ts t htext hfront hstarts hopens hnot =>
    obtain ⟨lexemes, htokens, hscan⟩ := scanFrom_front hfront .start
    obtain ⟨more, ending, hrest⟩ := hstarts.scanFrom (.behind before)
    obtain ⟨s, hs⟩ := (opens_iff hfront.lexes).1 hopens
    -- the token does not fit, or a rule text could begin with it as well
    have hstep : s.step t = none := by
      cases hstep : s.step t with
      | none => rfl
      | some s' =>
        obtain ⟨word, after, rfl, -, hword⟩ := hstarts.front
        refine absurd ((opens_iff (hfront.append hword).lexes).2 ⟨s', ?_⟩) hnot
        rw [steps_of_append hs, steps_cons hstep]
        rfl
    rw [htext, hscan, foldl_after, hrest]
    simp only
    rw [run_append (htokens ▸ hs), Reading.run, hstep]
    exact ⟨_, rfl, rfl⟩
  | @character before c rest ts htext hfront hstray hopens =>
    obtain ⟨lexemes, htokens, hscan⟩ := scanFrom_front hfront .start
    obtain ⟨f, hrest⟩ := hstray.scanFrom (.behind before)
    obtain ⟨s, hs⟩ := (opens_iff hfront.lexes).1 hopens
    rw [htext, hscan, foldl_after, hrest]
    simp only
    rw [run_append (htokens ▸ hs)]
    exact ⟨_, rfl, rfl⟩
  | @ending ts hlexes hopens hnot =>
    obtain ⟨lexemes, htokens, hscan⟩ := scanFrom_front (fronts_nil_iff.2 hlexes) .start
    obtain ⟨⟨done, place⟩, hs⟩ := (opens_iff hlexes).1 hopens
    have hplace : place ≠ .outside := by
      rintro rfl
      exact hnot done ((readRules_iff_steps hlexes).2 hs)
    rw [List.append_nil, foldl_after] at hscan
    rw [hscan]
    simp only
    rw [run_append (htokens ▸ hs)]
    cases place with
    | outside => exact absurd rfl hplace
    | _ => exact ⟨_, rfl, rfl⟩

/-- **A text that is no rule text has an offence**: at some token, or at what follows the last one. -/
theorem exists_offence (hnot : ∀ rules, readRules text ≠ .ok rules) : ∃ p, Offence text p := by
  -- the places before which all is well, from the start of the text on: by the length of what follows
  have hon : ∀ n before rest ts, rest.length = n → text.toList = before ++ rest → Fronts rest before ts → Opens ts →
      ∃ p, Offence text p := by
    intro n
    induction n using Nat.strongRecOn with
    | _ n ih =>
    intro before rest ts hlength htext hfront hopens
    have hgo : ∀ read rest' us, rest = read ++ rest' → read ≠ [] → Fronts rest' read us → Opens (ts ++ us) →
        ∃ p, Offence text p := by
      rintro read rest' us rfl hread hnext hopens'
      have hshorter : rest'.length < n := by
        have := List.length_pos_iff.2 hread
        rw [List.length_append] at hlength
        omega
      exact ih _ hshorter (before ++ read) rest' (ts ++ us) rfl (by rw [htext, List.append_assoc])
        (hfront.append hnext) hopens'
    cases rest with
    | nil =>
      rw [List.append_nil] at htext
      exact ⟨_, .ending (htext ▸ hfront.lexes) hopens hnot⟩
    | cons c rest =>
      by_cases hblank : Text.isBlank c = true
      · exact hgo [c] rest [] rfl (List.cons_ne_nil _ _) (.blank hblank .done) (by rwa [List.append_nil])
      by_cases hcomment : ∃ mark ∈ commentMarks, mark <+: c :: rest
      · obtain ⟨mark, hmark, hstarts⟩ := hcomment
        obtain ⟨comment, rest', hsplit, hne, hnext⟩ := exists_comment hmark hstarts
        exact hgo _ _ _ hsplit hne hnext (by rwa [List.append_nil])
      by_cases htoken : ∃ t, Starts (c :: rest) t
      · obtain ⟨t, ht⟩ := htoken
        by_cases hfits : Opens (ts ++ [t])
        · obtain ⟨word, rest', hsplit, hne, hnext⟩ := ht.front
          exact hgo _ _ _ hsplit hne hnext hfits
        · exact ⟨_, .token htext hfront ht hopens hfits⟩
      · have hstray : Stray c rest :=
          ⟨Bool.eq_false_iff.2 hblank, fun mark hmark h => hcomment ⟨mark, hmark, h⟩, fun t h => htoken ⟨t, h⟩⟩
        exact ⟨_, .character htext hfront hstray hopens⟩
  exact hon _ [] text.toList [] rfl rfl .done ((opens_iff .done).2 ⟨_, rfl⟩)

/-- **A refusal points at the offence**: whatever policy a text is denied by, it is refused with a position exactly when
it goes wrong there. So a text has one offence at most, and none when it is accepted. -/
theorem compose_error_iff (policy : Policy) (text : String) (p : Position) :
    (∃ e, policy.compose text = .error e ∧ e.position = p) ↔ Offence text p := by
  have hcompose : ∀ e, policy.compose text = .error e ↔ readRules text = .error e := by
    intro e
    unfold Policy.compose
    cases readRules text <;> simp [Except.map]
  simp only [hcompose]
  constructor
  · rintro ⟨e, he, rfl⟩
    have hnot : ∀ rules, readRules text ≠ .ok rules := fun rules h => by simp [h] at he
    obtain ⟨q, hq⟩ := exists_offence hnot
    obtain ⟨e', he', rfl⟩ := hq.error
    obtain rfl : e = e' := Except.error.inj (he.symm.trans he')
    exact hq
  · exact Offence.error

/-- A member without its semicolon: the brace behind it is what is wrong. -/
example : (readRules "app\n{ Person { ssn } }").mapError (·.position) = .error ⟨2, 16⟩ := by decide +kernel

end MemberAccess.Rule
