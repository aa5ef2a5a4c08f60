import Mathlib.Data.List.Basic
import Mathlib.Data.List.Induction
import MemberAccess.Overload

/-!
# The choice among overloads

* `Ranking.Holds`: what one pass has found out after some candidates; `Holds.rank`: it is kept, candidate
  by candidate, and `holds_foldl`: over all of them.
* `choose_cases`, `choose_of_least`: a choice is made of the candidates at the least cost.
* `of_choose_one`, `mem_of_choose_tie`: a choice is a candidate that can be called; those tied are candidates.
* `choose_congr`: the choice depends on the registry through the costs of the candidates alone.
* `choose_filter_of_less`, `choose_filter`: candidates that cost more than another one play no part in it, nor those
  that the call cannot go to.
* `choose_map`: candidates under another form are ranked like the candidates themselves.
-/

namespace MemberAccess

/-! ## One pass -/

section Ranking

variable {α : Type} {cost : α → Option Nat} {seen : List α} {w : Ranking α} {a : α} {k : Nat}

/-- What a ranking knows about the candidates that it has seen: none of them can be called, or there is a least
cost, and it has all that come at this cost, in order. -/
structure Ranking.Holds (cost : α → Option Nat) (seen : List α) (w : Ranking α) : Prop where
  nothing : w.least = none → w.tied = [] ∧ ∀ a ∈ seen, cost a = none
  least : ∀ n, w.least = some n → ∀ a ∈ seen, ∀ m, cost a = some m → n ≤ m
  tied : ∀ n, w.least = some n → w.tied = seen.filter (cost · = some n) ∧ w.tied ≠ []

/-- A candidate is passed over that cannot be called, or costs more. -/
theorem Ranking.Holds.pass (h : w.Holds cost seen) (hcost : ∀ k, cost a = some k → ∃ n < k, w.least = some n) :
    w.Holds cost (seen ++ [a]) where
  nothing hnone := by
    obtain ⟨htied, hseen⟩ := h.nothing hnone
    refine ⟨htied, fun b hb => ?_⟩
    rcases List.mem_append.1 hb with hb | hb
    · exact hseen b hb
    · rw [List.mem_singleton.1 hb, Option.eq_none_iff_forall_ne_some]
      intro k hk
      obtain ⟨n, -, hn⟩ := hcost k hk
      rw [hnone] at hn
      cases hn
  least n hn b hb m hm := by
    rcases List.mem_append.1 hb with hb | hb
    · exact h.least n hn b hb m hm
    · rw [List.mem_singleton.1 hb] at hm
      obtain ⟨n', hlt, hn'⟩ := hcost m hm
      have hsame : n = n' := Option.some.inj (hn.symm.trans hn')
      omega
  tied n hn := by
    obtain ⟨htied, hne⟩ := h.tied n hn
    refine ⟨?_, hne⟩
    have hother : cost a ≠ some n := by
      intro hk
      obtain ⟨n', hlt, hn'⟩ := hcost n hk
      have hsame : n = n' := Option.some.inj (hn.symm.trans hn')
      omega
    rw [List.filter_append, ← htied]
    simp [hother]

/-- A candidate at the least cost is one more of those tied. -/
theorem Ranking.Holds.tie (h : w.Holds cost seen) (hcost : cost a = w.least) (hk : cost a = some k) :
    ({ w with tied := w.tied ++ [a] } : Ranking α).Holds cost (seen ++ [a]) where
  nothing hnone := by
    rw [← hcost, hk] at hnone
    cases hnone
  least n hn b hb m hm := by
    rcases List.mem_append.1 hb with hb | hb
    · exact h.least n hn b hb m hm
    · rw [List.mem_singleton.1 hb, hcost, hn] at hm
      exact Nat.le_of_eq (Option.some.inj hm)
  tied n hn := by
    have hn' : cost a = some n := hcost.trans hn
    refine ⟨?_, by simp⟩
    rw [List.filter_append, ← (h.tied n hn).1]
    simp [hn']

/-- A candidate that costs less than all before it stands alone. -/
theorem Ranking.holds_alone (hless : ∀ b ∈ seen, ∀ m, cost b = some m → k < m) (hk : cost a = some k) :
    (⟨some k, [a]⟩ : Ranking α).Holds cost (seen ++ [a]) where
  nothing hnone := by cases hnone
  least n hn b hb m hm := by
    have hsame : k = n := Option.some.inj hn
    rcases List.mem_append.1 hb with hb | hb
    · have := hless b hb m hm
      omega
    · rw [List.mem_singleton.1 hb, hk] at hm
      have : k = m := Option.some.inj hm
      omega
  tied n hn := by
    have hsame : k = n := Option.some.inj hn
    have hbefore : seen.filter (cost · = some k) = [] := by
      rw [List.filter_eq_nil_iff]
      intro b hb hbk
      exact Nat.lt_irrefl k (hless b hb k (of_decide_eq_true hbk))
    simp [← hsame, hbefore, hk]

/-- **One more candidate.** -/
theorem Ranking.Holds.rank (h : w.Holds cost seen) (a : α) : (w.rank a (cost a)).Holds cost (seen ++ [a]) := by
  cases hk : cost a with
  | none => exact h.pass (by simp [hk])
  | some k =>
    unfold Ranking.rank
    cases hleast : w.least with
    | none =>
      refine holds_alone (fun b hb m hm => ?_) hk
      rw [(h.nothing hleast).2 b hb] at hm
      cases hm
    | some n =>
      simp only
      split
      · rename_i hgreater
        exact h.pass fun k' hk' => ⟨n, by rw [hk] at hk'; cases hk'; exact hgreater, hleast⟩
      · split
        · rename_i hsame
          exact hleast ▸ h.tie (by rw [hk, hleast, hsame]) hk
        · rename_i hgreater hother
          refine holds_alone (fun b hb m hm => ?_) hk
          have := h.least n hleast b hb m hm
          omega

/-- **All candidates.** -/
theorem Ranking.holds_foldl (cost : α → Option Nat) (candidates : List α) :
    (candidates.foldl (fun w a => w.rank a (cost a)) ({} : Ranking α)).Holds cost candidates := by
  induction candidates using List.reverseRecOn with
  | nil => exact ⟨fun _ => ⟨rfl, by simp⟩, by simp, by simp⟩
  | append_singleton candidates a ih =>
    rw [List.foldl_concat]
    exact ih.rank a

end Ranking

/-! ## The choice -/

section Members

variable {α : Type} {r : Registry} {params : α → List Ty} {actuals : List Ty} {candidates : List α}

/-- **A choice is made of the candidates at the least cost**, and there is none when no candidate can be called. -/
theorem choose_cases (r : Registry) (params : α → List Ty) (actuals : List Ty) (candidates : List α) :
    ((∀ a ∈ candidates, callCost r (params a) actuals = none) ∧ choose r params actuals candidates = .none) ∨
    ∃ n, (∀ a ∈ candidates, ∀ m, callCost r (params a) actuals = some m → n ≤ m) ∧
      candidates.filter (fun a => callCost r (params a) actuals = some n) ≠ [] ∧
      choose r params actuals candidates =
        .ofTied (candidates.filter fun a => callCost r (params a) actuals = some n) := by
  have hholds := Ranking.holds_foldl (fun a => callCost r (params a) actuals) candidates
  unfold choose
  cases hleast : (candidates.foldl (fun w a => w.rank a (callCost r (params a) actuals)) ({} : Ranking α)).least with
  | none =>
    obtain ⟨htied, hnone⟩ := hholds.nothing hleast
    exact .inl ⟨hnone, by rw [htied]; rfl⟩
  | some n =>
    obtain ⟨htied, hne⟩ := hholds.tied n hleast
    rw [htied] at hne ⊢
    exact .inr ⟨n, hholds.least n hleast, hne, rfl⟩

/-- **Where the least cost is known**, the choice is among the candidates that come at it. -/
theorem choose_of_least {n : Nat}
    (hleast : ∀ a ∈ candidates, ∀ m, callCost r (params a) actuals = some m → n ≤ m)
    (hsome : candidates.filter (fun a => callCost r (params a) actuals = some n) ≠ []) :
    choose r params actuals candidates =
      .ofTied (candidates.filter fun a => callCost r (params a) actuals = some n) := by
  obtain ⟨a, ha⟩ := List.exists_mem_of_ne_nil _ hsome
  have hcost : callCost r (params a) actuals = some n := of_decide_eq_true (List.mem_filter.1 ha).2
  rcases choose_cases r params actuals candidates with ⟨hnone, -⟩ | ⟨k, hlow, hne, hchoice⟩
  · rw [hnone a (List.mem_of_mem_filter ha)] at hcost
    cases hcost
  · obtain ⟨b, hb⟩ := List.exists_mem_of_ne_nil _ hne
    have hk : k ≤ n := hlow a (List.mem_of_mem_filter ha) n hcost
    have hn : n ≤ k := hleast b (List.mem_of_mem_filter hb) k (of_decide_eq_true (List.mem_filter.1 hb).2)
    rw [hchoice, Nat.le_antisymm hn hk]

theorem ofTied_eq_none_iff {tied : List α} : Choice.ofTied tied = .none ↔ tied = [] := by
  match tied with
  | [] => simp [Choice.ofTied]
  | [b] => simp [Choice.ofTied]
  | b :: c :: rest => simp [Choice.ofTied]

theorem ofTied_eq_one_iff {tied : List α} {a : α} : Choice.ofTied tied = .one a ↔ tied = [a] := by
  match tied with
  | [] => simp [Choice.ofTied]
  | [b] => simp [Choice.ofTied]
  | b :: c :: rest => simp [Choice.ofTied]

theorem ofTied_eq_tie_iff {tied more : List α} : Choice.ofTied tied = .tie more ↔ tied = more ∧ 2 ≤ tied.length := by
  match tied with
  | [] => simp [Choice.ofTied]
  | [b] => simp [Choice.ofTied]
  | b :: c :: rest => simp [Choice.ofTied]

/-- Of a list without repetitions a property that one element alone has leaves this element. -/
theorem filter_eq_singleton {p : α → Bool} {a : α} (hnodup : candidates.Nodup) (ha : a ∈ candidates)
    (h : ∀ b ∈ candidates, p b = true ↔ b = a) : candidates.filter p = [a] := by
  have hall : candidates.filter p = List.replicate (candidates.filter p).length a :=
    List.eq_replicate_of_mem fun b hb => (h b (List.mem_of_mem_filter hb)).1 (List.mem_filter.1 hb).2
  have hmem : a ∈ candidates.filter p := List.mem_filter.2 ⟨ha, (h a ha).2 rfl⟩
  have hone : (candidates.filter p).Nodup := hnodup.filter p
  rw [hall, List.nodup_replicate] at hone
  have hlength : (candidates.filter p).length = 1 := Nat.le_antisymm hone (List.length_pos_of_mem hmem)
  rw [hall, hlength]
  rfl

/-- **A candidate at the least cost is chosen** exactly if no other one comes at this cost. -/
theorem choose_eq_one_iff_alone {a : α} {n : Nat} (hnodup : candidates.Nodup)
    (hleast : ∀ b ∈ candidates, ∀ m, callCost r (params b) actuals = some m → n ≤ m) (ha : a ∈ candidates)
    (hcost : callCost r (params a) actuals = some n) : choose r params actuals candidates = .one a ↔
      ∀ b ∈ candidates, callCost r (params b) actuals = some n → b = a := by
  have hmem {b : α} (hb : b ∈ candidates) (hcost : callCost r (params b) actuals = some n) :
      b ∈ candidates.filter fun b => callCost r (params b) actuals = some n :=
    List.mem_filter.2 ⟨hb, decide_eq_true hcost⟩
  rw [choose_of_least hleast (List.ne_nil_of_mem (hmem ha hcost)), ofTied_eq_one_iff]
  constructor
  · intro hsingle b hb hsame
    have hb' := hmem hb hsame
    rw [hsingle] at hb'
    exact List.mem_singleton.1 hb'
  · intro halone
    refine filter_eq_singleton hnodup ha fun b hb => ?_
    rw [decide_eq_true_iff]
    exact ⟨halone b hb, fun hsame => hsame ▸ hcost⟩

/-- **What is chosen** is a candidate and can be called. -/
theorem of_choose_one {a : α} (h : choose r params actuals candidates = .one a) :
    a ∈ candidates ∧ (callCost r (params a) actuals).isSome = true := by
  rcases choose_cases r params actuals candidates with ⟨-, hnone⟩ | ⟨n, -, -, htied⟩
  · rw [hnone] at h
    cases h
  · rw [htied, ofTied_eq_one_iff] at h
    have ha : a ∈ candidates.filter fun a => callCost r (params a) actuals = some n := by simp [h]
    obtain ⟨hmem, hcost⟩ := List.mem_filter.1 ha
    exact ⟨hmem, Option.isSome_of_eq_some (of_decide_eq_true hcost)⟩

theorem mem_of_choose_tie {tied : List α} (h : choose r params actuals candidates = .tie tied) :
    ∀ a ∈ tied, a ∈ candidates := by
  intro a ha
  rcases choose_cases r params actuals candidates with ⟨-, hnone⟩ | ⟨n, -, -, htied⟩
  · rw [hnone] at h
    cases h
  · rw [htied, ofTied_eq_tie_iff] at h
    rw [← h.1] at ha
    exact List.mem_of_mem_filter ha

end Members

/-- **Equal costs, equal choice.** -/
theorem choose_congr {α : Type} {r r' : Registry} {params : α → List Ty} {actuals : List Ty}
    {candidates : List α}
    (h : ∀ c ∈ candidates, callCost r' (params c) actuals = callCost r (params c) actuals) :
    choose r' params actuals candidates = choose r params actuals candidates := by
  unfold choose
  congr 2
  apply List.foldl_ext
  intro w c hc
  rw [h c hc]

/-- **Candidates that cost more than another one play no part in a choice.** -/
theorem choose_filter_of_less {α : Type} {r : Registry} {params : α → List Ty} {actuals : List Ty}
    {candidates : List α} {p : α → Bool} (h : ∀ a ∈ candidates, p a = false → ∀ k,
      callCost r (params a) actuals = some k → ∃ b ∈ candidates, ∃ n < k, callCost r (params b) actuals = some n) :
    choose r params actuals (candidates.filter p) = choose r params actuals candidates := by
  rcases choose_cases r params actuals candidates with ⟨hnone, hchoice⟩ | ⟨n, hlow, hne, hchoice⟩
  · rcases choose_cases r params actuals (candidates.filter p) with ⟨-, hchoice'⟩ | ⟨n, -, hne, -⟩
    · rw [hchoice, hchoice']
    · obtain ⟨a, ha⟩ := List.exists_mem_of_ne_nil _ hne
      obtain ⟨hmem, hcost⟩ := List.mem_filter.1 ha
      rw [hnone a (List.mem_of_mem_filter hmem)] at hcost
      cases of_decide_eq_true hcost
  · have hkept : (candidates.filter p).filter (fun a => callCost r (params a) actuals = some n) =
        candidates.filter fun a => callCost r (params a) actuals = some n := by
      rw [List.filter_filter]
      refine List.filter_congr fun a ha => ?_
      cases hp : p a with
      | true => simp
      | false =>
        -- nothing costs less than those at the least cost, so this one costs more
        have hcost : callCost r (params a) actuals ≠ some n := by
          intro hcost
          obtain ⟨b, hb, m, hlt, hm⟩ := h a ha hp n hcost
          exact absurd (hlow b hb m hm) (Nat.not_le_of_lt hlt)
        simp [hcost]
    rw [hchoice, choose_of_least (fun a ha => hlow a (List.mem_of_mem_filter ha)) (hkept ▸ hne), hkept]

/-- Nor do those that the call cannot go to. -/
theorem choose_filter {α : Type} (r : Registry) (params : α → List Ty) (actuals : List Ty) (candidates : List α) :
    choose r params actuals (candidates.filter fun c => (callCost r (params c) actuals).isSome) =
      choose r params actuals candidates := by
  refine choose_filter_of_less fun a _ hp k hk => ?_
  simp [hk] at hp

/-! ## Candidates under another form -/

section Form

variable {α β : Type}

namespace Choice

/-- The same choice of other things. -/
def map (f : α → β) : Choice α → Choice β
  | none => .none
  | one a => .one (f a)
  | tie tied => .tie (tied.map f)

theorem map_ofTied (f : α → β) (tied : List α) : (ofTied tied).map f = ofTied (tied.map f) := by
  match tied with
  | [] => rfl
  | [_] => rfl
  | _ :: _ :: _ => rfl

theorem map_eq_one_iff {f : α → β} {choice : Choice α} {b : β} :
    choice.map f = .one b ↔ ∃ a, choice = .one a ∧ f a = b := by
  cases choice <;> simp [map]

theorem exists_map_eq_tie_iff {f : α → β} {choice : Choice α} :
    (∃ tied, choice.map f = .tie tied) ↔ ∃ tied, choice = .tie tied := by
  cases choice <;> simp [map]

end Choice

/-- Candidates under another form are ranked like the candidates themselves. -/
theorem choose_map (r : Registry) (params : β → List Ty) (actuals : List Ty) (f : α → β) (candidates : List α) :
    choose r params actuals (candidates.map f) = (choose r (params <| f ·) actuals candidates).map f := by
  let cost (a : α) := callCost r (params (f a)) actuals
  have hfold (w : Ranking α) :
      candidates.foldl (fun w a => w.rank (f a) (cost a)) (⟨w.least, w.tied.map f⟩ : Ranking β) =
        let w' := candidates.foldl (fun w a => w.rank a (cost a)) w
        ⟨w'.least, w'.tied.map f⟩ := by
    induction candidates generalizing w with
    | nil => rfl
    | cons a rest ih =>
      rw [List.foldl_cons, List.foldl_cons, ← ih]
      congr 1
      unfold Ranking.rank
      cases cost a with
      | none => rfl
      | some cost =>
        cases hleast : w.least with
        | none => rfl
        | some least =>
          simp only
          split
          · simp [hleast]
          · split <;> simp
  unfold choose
  rw [Choice.map_ofTied, List.foldl_map]
  exact congrArg (fun w => Choice.ofTied w.tied) (hfold {})

end Form

end MemberAccess
