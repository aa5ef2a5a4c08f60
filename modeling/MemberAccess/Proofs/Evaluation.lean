import MemberAccess.Proofs.Binding.Origin
import MemberAccess.Site

/-!
# What an evaluation does

An evaluation at a site replays the binding that the site remembers, if that one applies, and otherwise
searches for one and uses it. Host code runs in both, through accesses and through nothing else.

* `Plan.fresh_cases`: a search and the first use of what it found.
* `Site.ran`: the accesses that an evaluation runs, and `Site.evaluate_heap`: it does nothing else to
  the heap.
* `Site.evaluate_state`, `Site.cached_evaluate`: the engine and the site afterwards.
* `Site.evaluate_eq_fresh`: when an evaluation is a fresh access.
-/

namespace MemberAccess

variable {β : Type}

/-- The world with another memory in its engine. -/
def World.remember (w : World) (k : Introspector) : World :=
  { w with engine := { w.engine with introspector := k } }

namespace Plan

/-- The world after the search of a plan. -/
def searched (p : Plan β) (w : World) : World := w.remember (p.find w.engine.introspector).2

/-- What the search of a plan finds. -/
def found (p : Plan β) (w : World) : Except AmbiguousCall (Option β) := (p.find w.engine.introspector).1

/-- **A fresh access**: the search fails, or finds nothing, or what it finds is used. -/
theorem fresh_cases (p : Plan β) (w : World) :
    (∃ a, p.found w = .error a ∧ p.fresh w = (.error (.ambiguous a), p.searched w)) ∨
    (p.found w = .ok none ∧ p.fresh w = (.ok none, p.searched w)) ∨
    ∃ b, p.found w = .ok (some b) ∧ p.fresh w =
      (((p.invoke b w.heap).1.map fun v => some (b, v)),
        { p.searched w with heap := (p.invoke b w.heap).2 }) := by
  unfold found searched World.remember fresh
  rw [bind_apply]
  unfold Evaluation.search
  rcases p.find w.engine.introspector with ⟨a | _ | b, k⟩
  · exact Or.inl ⟨a, rfl, rfl⟩
  · exact Or.inr (Or.inl ⟨rfl, rfl⟩)
  · refine Or.inr (Or.inr ⟨b, rfl, ?_⟩)
    simp only [Except.mapError]
    rw [bind_apply]
    unfold Evaluation.run
    simp only
    rcases p.invoke b w.heap with ⟨e | v, h⟩ <;> rfl

/-- The access of a fresh access: that of the binding that the search finds. -/
def runs (p : Plan β) (w : World) : List Access :=
  match p.found w with
  | .ok (some b) => [p.access b]
  | _ => []

end Plan

namespace Access

/-- The heap after some accesses, one after the other. -/
def after (h : Heap) (accesses : List Access) : Heap := accesses.foldl (fun h a => (a.host h).2) h

theorem run_apply (a : Access) (h : Heap) : a.run h = ((a.host h).1.mapError a.error, (a.host h).2) := by
  rfl

/-- An access that counts as not tried is one whose member may refuse, and has. -/
theorem refused_of_stale {a : Access} {h : Heap} (ha : (a.attempt h).1 = .ok .stale) :
    a.mayRefuse = true ∧ ∃ what, (a.host h).1 = .error (.fault (.illegalAccess what)) := by
  unfold attempt at ha
  rcases hhost : a.host h with ⟨halt | v, h'⟩ <;> rw [hhost] at ha
  · simp only at ha
    split at ha
    · rename_i what hrefuse
      exact ⟨hrefuse, what, rfl⟩
    · cases ha
  · cases ha

end Access

/-- After a fresh access the engine has searched, and the heap is as the access left it. -/
theorem Plan.fresh_world (p : Plan β) (w : World) :
    (p.fresh w).2 = { p.searched w with heap := Access.after w.heap (p.runs w) } := by
  unfold runs
  rcases p.fresh_cases w with ⟨a, hb, e⟩ | ⟨hb, e⟩ | ⟨b, hb, e⟩ <;> rw [e, hb]
  · rfl
  · rfl
  · simp only [invoke, Access.run_apply]
    rfl

namespace Site

/-- The accesses that an evaluation runs: that of the remembered binding, if it applies, and unless it
answers, that of the binding that the search finds. -/
def ran (s : Site β) (p : Plan β) (w : World) : List Access :=
  match s.cached.bind p.replay? with
  | none => p.runs w
  | some a => match (a.attempt w.heap).1 with
    | .ok .stale => a :: p.runs w
    | _ => [a]

/-- **An evaluation without a remembered binding** searches and uses what it finds. -/
theorem miss_spec (s : Site β) (p : Plan β) (w : World) :
    (s.miss p w).1 = (p.fresh w).1.map (·.map (·.2)) ∧ (s.miss p w).2.2 = (p.fresh w).2 ∧
      ((s.miss p w).2.1.cached = s.cached ∨
        ∃ b, p.found w = .ok (some b) ∧ p.keeps b = true ∧ (s.miss p w).2.1.cached = some b) := by
  unfold miss
  rcases p.fresh_cases w with ⟨a, -, e⟩ | ⟨-, e⟩ | ⟨b, hb, e⟩ <;> rw [e]
  · exact ⟨rfl, rfl, Or.inl rfl⟩
  · exact ⟨rfl, rfl, Or.inl rfl⟩
  · rcases (p.invoke b w.heap).1 with f | v
    · exact ⟨rfl, rfl, Or.inl rfl⟩
    · refine ⟨rfl, rfl, ?_⟩
      simp only [Except.map, keep]
      split
      · rename_i hkeep
        exact Or.inr ⟨b, hb, hkeep, rfl⟩
      · exact Or.inl rfl

/-- **An evaluation**: no remembered binding applies, or the one that does answers, or it refuses. -/
theorem evaluate_cases (s : Site β) (p : Plan β) (w : World) :
    (s.cached.bind p.replay? = none ∧ s.evaluate p w = s.miss p w) ∨
    ∃ b a, s.cached = some b ∧ p.replay? b = some a ∧
      (((a.attempt w.heap).1 = .ok .stale ∧
          s.evaluate p w = s.miss p { w with heap := (a.host w.heap).2 }) ∨
        ((a.attempt w.heap).1 ≠ .ok .stale ∧ ∃ s' : Site β, s'.cached = s.cached ∧
          s.evaluate p w = ((a.run w.heap).1.map some, s', { w with heap := (a.host w.heap).2 }))) := by
  unfold evaluate
  cases hc : s.cached with
  | none => exact Or.inl ⟨rfl, rfl⟩
  | some b =>
    simp only [Option.bind_some, Evaluation.run, Plan.attempt]
    cases ha : p.replay? b with
    | none => exact Or.inl ⟨rfl, rfl⟩
    | some a =>
      refine Or.inr ⟨b, a, rfl, ha, ?_⟩
      simp only [attemptIf, Access.attempt, Access.run_apply]
      rcases a.host w.heap with ⟨halt | v, h⟩
      · -- a member that may refuse and does is passed over, any other failure is the answer
        simp only
        split
        · exact Or.inl ⟨rfl, rfl⟩
        · exact Or.inr ⟨by simp, s, hc, rfl⟩
      · exact Or.inr ⟨by simp, s.hit, hc, rfl⟩

/-- **An evaluation does nothing to the heap but run its accesses.** -/
theorem evaluate_heap (s : Site β) (p : Plan β) (w : World) :
    (s.evaluate p w).2.2.heap = Access.after w.heap (s.ran p w) := by
  unfold ran
  rcases s.evaluate_cases p w with ⟨hnone, e⟩ | ⟨b, a, hc, ha, ⟨hstale, e⟩ | ⟨hstale, s', -, e⟩⟩ <;> rw [e]
  · rw [hnone, (s.miss_spec p w).2.1, p.fresh_world]
  · -- the access that refused has run all the same, and then what the search found
    rw [hc, Option.bind_some, ha]
    simp only
    rw [hstale, (s.miss_spec p _).2.1, p.fresh_world]
    rfl
  · rw [hc, Option.bind_some, ha]
    simp only
    rfl

/-- **The engine and the site after an evaluation**: both are as they were, or the engine has searched, and
what it found may be remembered. -/
theorem evaluate_state (s : Site β) (p : Plan β) (w : World) :
    ((s.evaluate p w).2.2.engine = w.engine ∧ (s.evaluate p w).2.1.cached = s.cached) ∨
    ((s.evaluate p w).2.2.engine = (p.searched w).engine ∧ ((s.evaluate p w).2.1.cached = s.cached ∨
      ∃ b, p.found w = .ok (some b) ∧ p.keeps b = true ∧ (s.evaluate p w).2.1.cached = some b)) := by
  rcases s.evaluate_cases p w with ⟨-, e⟩ | ⟨b, a, -, -, ⟨-, e⟩ | ⟨-, s', hs', e⟩⟩ <;> rw [e]
  · obtain ⟨-, hw, hcached⟩ := s.miss_spec p w
    rw [hw, p.fresh_world]
    exact Or.inr ⟨rfl, hcached⟩
  · obtain ⟨-, hw, hcached⟩ := s.miss_spec p { w with heap := (a.host w.heap).2 }
    rw [hw, p.fresh_world]
    exact Or.inr ⟨rfl, hcached⟩
  · exact Or.inl ⟨rfl, hs'⟩

/-- **What a site remembers after an evaluation** it remembered before, or the engine has just found it. -/
theorem cached_evaluate {s : Site β} {p : Plan β} {w : World} {b : β} (h : (s.evaluate p w).2.1.cached = some b) :
    s.cached = some b ∨ p.found w = .ok (some b) ∧ (s.evaluate p w).2.2.engine = (p.searched w).engine := by
  rcases s.evaluate_state p w with ⟨-, hc⟩ | ⟨hengine, hc | ⟨b', hfound, -, hc⟩⟩ <;> rw [hc] at h
  · exact Or.inl h
  · exact Or.inl h
  · cases h
    exact Or.inr ⟨hfound, hengine⟩

/-- **A site is transparent** when the remembered binding, where it applies, does what the search would
find, and its member does nothing when it refuses. -/
theorem evaluate_eq_fresh {s : Site β} {p : Plan β} {w : World}
    (h : ∀ b a, s.cached = some b → p.replay? b = some a →
      (∃ b', p.found w = .ok (some b') ∧ p.access b' = a) ∧
        ((a.attempt w.heap).1 = .ok .stale → (a.host w.heap).2 = w.heap)) :
    (s.evaluate p w).1 = (p.fresh w).1.map (·.map (·.2)) ∧ (s.evaluate p w).2.2.heap = (p.fresh w).2.heap := by
  have hmiss : (s.miss p w).1 = (p.fresh w).1.map (·.map (·.2)) ∧ (s.miss p w).2.2.heap = (p.fresh w).2.heap := by
    obtain ⟨hanswer, hw, -⟩ := s.miss_spec p w
    exact ⟨hanswer, by rw [hw]⟩
  rcases s.evaluate_cases p w with ⟨-, e⟩ | ⟨b, a, hc, ha, ⟨hstale, e⟩ | ⟨-, s', -, e⟩⟩
  · rw [e]
    exact hmiss
  · -- a member that refuses leaves everything to the search
    rw [e, (h b a hc ha).2 hstale]
    exact hmiss
  · -- the access that is replayed is the one that the search leads to
    obtain ⟨⟨b', hb', haccess⟩, -⟩ := h b a hc ha
    rw [e]
    rcases p.fresh_cases w with ⟨a', hf, -⟩ | ⟨hf, -⟩ | ⟨b'', hf, e'⟩ <;> rw [hb'] at hf
    · cases hf
    · cases hf
    · cases hf
      rw [e']
      unfold Plan.invoke
      rw [haccess, Access.run_apply]
      rcases a.host w.heap with ⟨halt | v, h⟩ <;> exact ⟨rfl, rfl⟩

end Site

end MemberAccess
