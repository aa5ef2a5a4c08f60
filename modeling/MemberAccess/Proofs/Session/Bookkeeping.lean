import MemberAccess.Proofs.Session.Retirement

/-!
# The books of a site

A site keeps one binding and two counts. An evaluation there has two parts, of which the second only happens if the
first says that nothing applies: the replay of the binding, and a fresh access. What an evaluation does to the site
is told by how the two come out, whatever the rest of the session is.

* `Site.Booked`: the entries that an evaluation can make, one for each way in which it ends (`evaluate_booked`).
* `Session.site`: the site at a place, with its binding among bindings of any sort (`use_booked`).
* `Session.memberFails_of_replay`: a replay fails with the member of its binding only.
* `Session.replays`: what the replays at a site come to in a run, and with them its counts (`counts_run`).
* `Session.bookkeeping`: what an evaluation changes, and what the counts of a run add up to.
-/

namespace MemberAccess

/-! ## One evaluation -/

namespace Site

variable {β γ : Type}

/-- What an evaluation does to a site, and its answer, by how the replay comes out and, where that does not apply,
the fresh access. -/
inductive Booked (Keeps : β → Prop) (s : Site β) : Except AccessError Outcome →
    Except AccessError (Option (β × Value)) → Except AccessError (Option Value) → Site β → Prop
  /-- the replay answers -/
  | answered (v fresh) : Booked Keeps s (.ok (.done v)) fresh (.ok (some v)) s.hit
  /-- the member of the replayed binding fails -/
  | failed (e fresh) : Booked Keeps s (.error e) fresh (.error e) s
  | taken {b} (v) (hkeep : Keeps b) :
      Booked Keeps s (.ok .stale) (.ok (some (b, v))) (.ok (some v)) { s.missed with cached := some b }
  /-- what has been used may not be kept, which does not come up in sessions: what an engine finds is alive, and host
  code, which acts on the heap alone, does not retire its class while it is used -/
  | left {b} (v) (hkeep : ¬Keeps b) : Booked Keeps s (.ok .stale) (.ok (some (b, v))) (.ok (some v)) s.missed
  | nothing : Booked Keeps s (.ok .stale) (.ok none) (.ok none) s.missed
  /-- the search ties, or the member of what it found fails -/
  | broken (e) : Booked Keeps s (.ok .stale) (.error e) (.error e) s.missed

theorem miss_booked (s : Site β) (p : Plan β) (w : World) :
    Booked (p.keeps · = true) s (.ok .stale) (p.fresh w).1 (s.miss p w).1 (s.miss p w).2.1 := by
  unfold miss
  rcases p.fresh w with ⟨e | _ | ⟨b, v⟩, w'⟩
  · exact .broken e
  · exact .nothing
  · simp only [keep]
    split
    · rename_i hkeep
      exact .taken v hkeep
    · rename_i hkeep
      exact .left v hkeep

/-- **An evaluation makes one entry**: by the replay, and by the fresh access on the heap that the replay has left. -/
theorem evaluate_booked (s : Site β) (p : Plan β) (w : World) :
    Booked (p.keeps · = true) s (attemptIf (s.cached.bind p.replay?) w.heap).1
      (p.fresh { w with heap := (attemptIf (s.cached.bind p.replay?) w.heap).2 }).1 (s.evaluate p w).1
      (s.evaluate p w).2.1 := by
  unfold evaluate
  cases hc : s.cached with
  | none => exact s.miss_booked p w
  | some b =>
    simp only [Option.bind_some, Evaluation.run, Plan.attempt]
    rcases attemptIf (p.replay? b) w.heap with ⟨e | _ | _, h⟩
    · exact .failed e _
    · exact .answered _ _
    · exact s.miss_booked p _

/-- A site whose binding is seen as one of another sort. -/
def map (f : β → γ) (s : Site β) : Site γ where
  cached := s.cached.map f
  hits := s.hits
  misses := s.misses

theorem Booked.map {Keeps : β → Prop} {Keeps' : γ → Prop} {f : β → γ} (hkeeps : ∀ b, Keeps b ↔ Keeps' (f b))
    {s s' : Site β} {replay fresh answer} (h : Booked Keeps s replay fresh answer s') :
    Booked Keeps' (s.map f) replay (fresh.map (·.map (Prod.map f id))) answer (s'.map f) := by
  cases h with
  | answered v => exact .answered v _
  | failed e => exact .failed e _
  | taken v hkeep => exact .taken v ((hkeeps _).1 hkeep)
  | left v hkeep => exact .left v fun h => hkeep ((hkeeps _).2 h)
  | nothing => exact .nothing
  | broken e => exact .broken e

section Entries

variable {Keeps : β → Prop} {s s' : Site β} {replay : Except AccessError Outcome}
  {fresh : Except AccessError (Option (β × Value))} {answer : Except AccessError (Option Value)}

/-- Another binding is remembered only where a fresh access has answered, and is the one that it has found. -/
theorem Booked.cached (h : Booked Keeps s replay fresh answer s') : s'.cached = s.cached ∨
    ∃ b v, replay = .ok .stale ∧ fresh = .ok (some (b, v)) ∧ Keeps b ∧ answer = .ok (some v) ∧ s'.cached = some b := by
  cases h with
  | @taken b v hkeep => exact .inr ⟨b, v, rfl, rfl, hkeep, rfl, rfl⟩
  | answered | failed | left | nothing | broken => exact .inl rfl

theorem Booked.cached_of_fresh {b : β} {v : Value}
    (h : Booked Keeps s (.ok .stale) (.ok (some (b, v))) answer s') (hkeep : Keeps b) : s'.cached = some b := by
  cases h with
  | taken => rfl
  | left _ hnot => exact absurd hkeep hnot

theorem Booked.cached_of_no_value (h : Booked Keeps s replay fresh answer s') (hnone : ∀ v, answer ≠ .ok (some v)) :
    s'.cached = s.cached := by
  rcases h.cached with heq | ⟨b, v, -, -, -, hanswer, -⟩
  · exact heq
  · exact absurd hanswer (hnone v)

/-- An answer of the replay is a hit, and what the replay passes on is a miss. -/
theorem Booked.counts (h : Booked Keeps s replay fresh answer s') :
    (∃ v, replay = .ok (.done v) ∧ answer = .ok (some v) ∧ s'.hits = s.hits + 1 ∧ s'.misses = s.misses) ∨
    (replay = .ok .stale ∧ s'.hits = s.hits ∧ s'.misses = s.misses + 1) ∨
    ∃ e, replay = .error e ∧ answer = .error e ∧ s' = s := by
  cases h with
  | answered v => exact .inl ⟨v, rfl, rfl, rfl, rfl⟩
  | failed e => exact .inr (.inr ⟨e, rfl, rfl, rfl⟩)
  | taken | left | nothing | broken => exact .inr (.inl ⟨rfl, rfl, rfl⟩)

end Entries

end Site

namespace Session

open Site (Booked)

/-- The site at a place. -/
def site (s : Session) : Place → Site Binding
  | .read n => (s.readSites n).map .reader
  | .write n => (s.writeSites n).map .writer
  | .call n => (s.callSites n).map .caller

@[simp]
theorem cached_site (s : Session) (p : Place) : (s.site p).cached = s.cached p := by
  cases p <;> rfl

/-- What the replay of the binding that the site of an evaluation remembers comes to, and the heap afterwards. -/
def replay (s : Session) (u : Use) : Except AccessError Outcome × Heap :=
  attemptIf ((s.cached u.place).bind u.replay?) s.heap

/-- What a search for an evaluation finds, and the first use of that on a heap. -/
def firstUse (s : Session) (i : Nat) (heap : Heap) : Use → Except AccessError (Option (Binding × Value))
  | .read _ style target key => ((s.readPlan i style target key).fresh ⟨s.engines i, heap⟩).1.map
      (·.map (Prod.map .reader id))
  | .write _ style target key v => ((s.writePlan i style target key v).fresh ⟨s.engines i, heap⟩).1.map
      (·.map (Prod.map .writer id))
  | .call _ target name args => ((s.callPlan target name args).fresh ⟨s.engines i, heap⟩).1.map
      (·.map (Prod.map .caller id))

/-- An evaluation at a site of any sort, with its binding among bindings of any sort. -/
theorem booked_evaluate {β : Type} {s : Session} {u : Use} {site : Site β} {p : Plan β} {wrap : β → Binding} (i : Nat)
    (hkeeps : ∀ b, p.keeps b = true ↔ s.registry.Living (wrap b).member?)
    (hreplay : s.replay u = attemptIf (site.cached.bind p.replay?) s.heap) :
    Booked (fun b => s.registry.Living b.member?) (site.map wrap) (s.replay u).1
      ((p.fresh ⟨s.engines i, (s.replay u).2⟩).1.map (·.map (Prod.map wrap id)))
      (site.evaluate p (s.world i)).1 ((site.evaluate p (s.world i)).2.1.map wrap) := by
  have hbooked := site.evaluate_booked p (s.world i)
  simp only [world] at hbooked
  rw [← hreplay] at hbooked
  refine Booked.map ?_ hbooked
  exact hkeeps

/-- **An evaluation at a site of a session makes one entry there.** A binding may be kept while the class of its
member is alive. -/
theorem use_booked (s : Session) (i : Nat) (u : Use) :
    Booked (fun b => s.registry.Living b.member?) (s.site u.place) (s.replay u).1 (s.firstUse i (s.replay u).2 u)
      (s.use i u).1 ((s.use i u).2.site u.place) := by
  cases u with
  | read n style target key =>
    have hreplay : s.replay (.read n style target key) =
        attemptIf ((s.readSites n).cached.bind (s.readPlan i style target key).replay?) s.heap := by
      simp only [replay, Use.place, cached]
      cases (s.readSites n).cached <;> rfl
    simp only [Use.place, use, site, Function.update_self]
    exact booked_evaluate i (fun b => Reader.isAlive_iff) hreplay
  | write n style target key v =>
    have hreplay : s.replay (.write n style target key v) =
        attemptIf ((s.writeSites n).cached.bind (s.writePlan i style target key v).replay?) s.heap := by
      simp only [replay, Use.place, cached]
      cases (s.writeSites n).cached <;> rfl
    simp only [Use.place, use, site, Function.update_self]
    exact booked_evaluate i (fun b => Writer.isAlive_iff) hreplay
  | call n target name args =>
    have hreplay : s.replay (.call n target name args) =
        attemptIf ((s.callSites n).cached.bind (s.callPlan target name args).replay?) s.heap := by
      simp only [replay, Use.place, cached]
      cases (s.callSites n).cached <;> rfl
    have hkeeps : ∀ b : Caller, b.isAlive s.registry = true ↔ s.registry.Living (Binding.caller b).member? := by
      intro b
      simp [Caller.isAlive, Registry.Living, Binding.member?, Member.declaring]
    simp only [Use.place, use, site, Function.update_self]
    exact booked_evaluate i hkeeps hreplay

/-- The member of the binding that the site of an evaluation remembers fails when it is replayed. -/
def MemberFails (s : Session) (u : Use) (e : AccessError) : Prop :=
  ∃ b a halt, s.cached u.place = some b ∧ u.replay? b = some a ∧ (a.host s.heap).1 = .error halt ∧ e = a.error halt

/-- **A replay fails with its member only.** -/
theorem memberFails_of_replay {s : Session} {u : Use} {e : AccessError} (h : (s.replay u).1 = .error e) :
    s.MemberFails u e := by
  unfold replay at h
  cases ha : (s.cached u.place).bind u.replay? with
  | none =>
    rw [ha] at h
    cases h
  | some a =>
    obtain ⟨b, hb, hreplay⟩ := Option.bind_eq_some_iff.1 ha
    rw [ha] at h
    simp only [attemptIf, Access.attempt] at h
    rcases hhost : a.host s.heap with ⟨halt | v, heap⟩ <;> rw [hhost] at h
    · refine ⟨b, a, halt, hb, hreplay, by rw [hhost], ?_⟩
      simp only at h
      split at h
      · cases h
      · cases h
        rfl
    · cases h

/-! ## Runs -/

deriving instance DecidableEq for Place

theorem site_use_of_ne {s : Session} {i : Nat} {u : Use} {p : Place} (h : u.place ≠ p) :
    (s.use i u).2.site p = s.site p := by
  cases u with
  | read n style target key =>
    cases p with
    | read m =>
      have hne : m ≠ n := fun heq => h (by rw [heq]; rfl)
      simp only [use, site, Function.update_of_ne hne]
    | write m | call m => rfl
  | write n style target key v =>
    cases p with
    | write m =>
      have hne : m ≠ n := fun heq => h (by rw [heq]; rfl)
      simp only [use, site, Function.update_of_ne hne]
    | read m | call m => rfl
  | call n target name args =>
    cases p with
    | call m =>
      have hne : m ≠ n := fun heq => h (by rw [heq]; rfl)
      simp only [use, site, Function.update_of_ne hne]
    | read m | write m => rfl

theorem site_clear (s : Session) (p q : Place) :
    (s.clear q).site p = if p = q then (s.site p).clear else s.site p := by
  cases p <;> cases q <;> simp only [clear, site, Function.update_apply, reduceCtorEq, if_false, Place.read.injEq,
    Place.write.injEq, Place.call.injEq]
  all_goals
    split
    · rename_i heq
      rw [heq]
      rfl
    · rfl

/-- What the replay at a site comes to, if an event is an evaluation there. -/
def replayAt (s : Session) (p : Place) : Event → Option (Except AccessError Outcome)
  | .use _ u => if u.place = p then some (s.replay u).1 else none
  | _ => none

/-- What the replays at a site come to in a run, one for each evaluation there. -/
def replays (s : Session) (p : Place) : List Event → List (Except AccessError Outcome)
  | [] => []
  | e :: rest => (s.replayAt p e).toList ++ (s.step e).replays p rest

/-- A replay that answers. -/
def answers : Except AccessError Outcome → Bool
  | .ok (.done _) => true
  | _ => false

/-- A replay whose member fails. -/
def fails : Except AccessError Outcome → Bool
  | .error _ => true
  | _ => false

/-- A replay that does not apply: there is no binding, or it is not for this evaluation, or its field refuses. -/
def passes : Except AccessError Outcome → Bool
  | .ok .stale => true
  | _ => false

/-- **What one event does to the counts of a site**: an answer is a hit, what passes on to a search is a miss, and
nothing else counts. -/
theorem counts_step (s : Session) (p : Place) (e : Event) :
    ((s.step e).site p).hits = (s.site p).hits + (s.replayAt p e).toList.countP answers ∧
      ((s.step e).site p).misses = (s.site p).misses + (s.replayAt p e).toList.countP passes := by
  cases e with
  | change c | host f | touch i t | find i d => cases p <;> exact ⟨rfl, rfl⟩
  | clear q =>
    simp only [step, site_clear]
    split <;> exact ⟨rfl, rfl⟩
  | use i u =>
    simp only [step, replayAt]
    by_cases hp : u.place = p
    · subst hp
      rw [if_pos rfl]
      rcases (s.use_booked i u).counts with
        ⟨v, e, -, hhits, hmisses⟩ | ⟨e, hhits, hmisses⟩ | ⟨_, e, -, hsame⟩ <;> rw [e]
      · exact ⟨hhits, hmisses⟩
      · exact ⟨hhits, hmisses⟩
      · rw [hsame]
        exact ⟨rfl, rfl⟩
    · rw [if_neg hp, site_use_of_ne hp]
      exact ⟨rfl, rfl⟩

/-- **The counts of a site after a run.** -/
theorem counts_run (s : Session) (p : Place) (es : List Event) :
    ((s.run es).site p).hits = (s.site p).hits + (s.replays p es).countP answers ∧
      ((s.run es).site p).misses = (s.site p).misses + (s.replays p es).countP passes := by
  induction es generalizing s with
  | nil => exact ⟨rfl, rfl⟩
  | cons e rest ih =>
    obtain ⟨hhits, hmisses⟩ := s.counts_step p e
    obtain ⟨hhits', hmisses'⟩ := ih (s.step e)
    simp only [replays, List.countP_append]
    constructor
    · show (((s.step e).run rest).site p).hits = _
      omega
    · show (((s.step e).run rest).site p).misses = _
      omega

/-- A replay answers, passes or fails. -/
theorem countP_replays (replays : List (Except AccessError Outcome)) :
    replays.countP answers + replays.countP passes + replays.countP fails = replays.length := by
  induction replays with
  | nil => rfl
  | cons x rest ih =>
    simp only [List.countP_cons, List.length_cons]
    rcases x with e | v | - <;> simp only [answers, passes, fails, if_true, Bool.false_eq_true, if_false] <;> omega

/-- An event is an evaluation at a site. -/
def Event.usesSite (p : Place) : Event → Bool
  | .use _ u => u.place = p
  | _ => false

/-- There is a replay for each evaluation. -/
theorem length_replays (s : Session) (p : Place) (es : List Event) :
    (s.replays p es).length = es.countP (·.usesSite p) := by
  induction es generalizing s with
  | nil => rfl
  | cons e rest ih =>
    have hone : (s.replayAt p e).toList.length = if e.usesSite p then 1 else 0 := by
      cases e with
      | use i u =>
        simp only [replayAt, Event.usesSite, decide_eq_true_eq]
        split <;> rfl
      | _ => rfl
    simp only [replays, List.length_append, List.countP_cons, ih, hone]
    omega

/-- **What an evaluation changes at its site, and what the counts of a run add up to.** At a site of any sort, in any
session: the site comes to remember another binding only if an evaluation there is answered by a fresh access and the
class of the member that it found is alive; then the site remembers just that binding. An evaluation that is answered
by the replay is a hit, one that goes on to a search is a miss, and one in which the member of the replayed binding
fails is neither. So in a run, whatever else happens in between, the hits grow by the evaluations that a replay has
answered, and hits and misses together by all evaluations but the failed replays. -/
theorem bookkeeping (s : Session) (p : Place) :
    (∀ i u, u.place = p →
      ((s.use i u).2.cached p = s.cached p ∨ ∃ b v, (s.replay u).1 = .ok .stale ∧
        s.firstUse i (s.replay u).2 u = .ok (some (b, v)) ∧ s.registry.Living b.member? ∧
        (s.use i u).1 = .ok (some v) ∧ (s.use i u).2.cached p = some b) ∧
      (∀ b v, (s.replay u).1 = .ok .stale → s.firstUse i (s.replay u).2 u = .ok (some (b, v)) →
        s.registry.Living b.member? → (s.use i u).2.cached p = some b) ∧
      ((∀ v, (s.use i u).1 ≠ .ok (some v)) → (s.use i u).2.cached p = s.cached p) ∧
      ((∃ v, (s.replay u).1 = .ok (.done v) ∧ (s.use i u).1 = .ok (some v) ∧
          ((s.use i u).2.site p).hits = (s.site p).hits + 1 ∧ ((s.use i u).2.site p).misses = (s.site p).misses) ∨
        ((s.replay u).1 = .ok .stale ∧ ((s.use i u).2.site p).hits = (s.site p).hits ∧
          ((s.use i u).2.site p).misses = (s.site p).misses + 1) ∨
        ∃ e, (s.replay u).1 = .error e ∧ s.MemberFails u e ∧ (s.use i u).1 = .error e ∧
          (s.use i u).2.site p = s.site p)) ∧
    ∀ es,
      (s.replays p es).length = es.countP (·.usesSite p) ∧
      ((s.run es).site p).hits = (s.site p).hits + (s.replays p es).countP answers ∧
      ((s.run es).site p).hits + ((s.run es).site p).misses + (s.replays p es).countP fails =
        (s.site p).hits + (s.site p).misses + (s.replays p es).length := by
  constructor
  · rintro i u rfl
    have hbooked := s.use_booked i u
    simp only [← cached_site]
    refine ⟨hbooked.cached, fun b v hstale hfresh hliving => ?_, hbooked.cached_of_no_value, ?_⟩
    · rw [hstale, hfresh] at hbooked
      exact hbooked.cached_of_fresh hliving
    · rcases hbooked.counts with h | h | ⟨e, hfailed, hanswer, hsite⟩
      · exact .inl h
      · exact .inr (.inl h)
      · exact .inr (.inr ⟨e, hfailed, memberFails_of_replay hfailed, hanswer, hsite⟩)
  · intro es
    obtain ⟨hhits, hmisses⟩ := s.counts_run p es
    have hall := countP_replays (s.replays p es)
    refine ⟨s.length_replays p es, hhits, ?_⟩
    omega

/-- The first of three calls is a miss, and the others are answered by the overload that it found. -/
example : (start (fun _ => .unrestricted) (fun _ => .pojo) {}).replays (.call 0) (.replicate 3 (.use 0 unboxing)) =
    [.ok .stale, .ok (.done (.bool true)), .ok (.done (.bool true))] := by
  decide +kernel

end Session

end MemberAccess
