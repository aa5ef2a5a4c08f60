import Mathlib.Data.List.Induction
import MemberAccess.Proofs.Session.CallSite
import MemberAccess.Proofs.Session.PropertySite
import MemberAccess.Proofs.Session.Retirement

/-!
# Ties at sites

Two members may fit a call or a write equally well, and then a search fails with the tie. A site that remembers a
binding tries that one first, and does not rank again: it shows the tie exactly when what it remembers does not apply.
A reader applies to the property that it was found for, and a caller to the signature, so neither applies where the
search ties. A writer also takes values of other types than the one that it was found for, null above all, and there
it hides the tie.

* `Site.evaluate_tied`: an evaluation whose search ties.
* `Session.taken_up`: what a site remembers has been taken up by an evaluation there.
* `Session.shows_tie_iff`: when an evaluation shows a tie, and what else it does.
* `Session.not_shows_tie`: a tie that is hidden.
-/

namespace MemberAccess

/-- **An evaluation whose search ties**: a binding that applies is used instead, and only when there is none, or its
member refuses, the tie is the answer. The site remembers what it remembered. -/
theorem Site.evaluate_tied {β : Type} {s : Site β} {p : Plan β} {w : World} {a : AmbiguousCall}
    (h : p.found w = .error a) :
    (s.cached.bind p.replay? = none → (s.evaluate p w).1 = .error (.ambiguous a) ∧ s.ran p w = []) ∧
      (∀ {x}, s.cached.bind p.replay? = some x → s.ran p w = [x] ∧
        ((x.attempt w.heap).1 = .ok .stale ∧ (s.evaluate p w).1 = .error (.ambiguous a) ∨
          (x.attempt w.heap).1 ≠ .ok .stale ∧ (s.evaluate p w).1 = (x.run w.heap).1.map some)) ∧
      (s.evaluate p w).2.1.cached = s.cached := by
  -- the search does not look at the heap, so it also ties after a member has refused
  have hruns : ∀ heap, p.runs { w with heap := heap } = [] := by
    intro heap
    have hfound : p.found { w with heap := heap } = .error a := h
    unfold Plan.runs
    rw [hfound]
  have hmiss : ∀ heap, (s.miss p { w with heap := heap }).1 = .error (.ambiguous a) := by
    intro heap
    have hfound : p.found { w with heap := heap } = .error a := h
    rw [(s.miss_spec p _).1]
    rcases p.fresh_cases { w with heap := heap } with ⟨a', ha', e⟩ | ⟨hnone, -⟩ | ⟨b, hb, -⟩
    · rw [hfound] at ha'
      cases ha'
      rw [e]
      rfl
    · rw [hfound] at hnone
      cases hnone
    · rw [hfound] at hb
      cases hb
  have hcached : (s.evaluate p w).2.1.cached = s.cached := by
    rcases s.evaluate_state p w with ⟨-, hc⟩ | ⟨-, hc | ⟨b, hb, -⟩⟩
    · exact hc
    · exact hc
    · rw [h] at hb
      cases hb
  refine ⟨?_, ?_, hcached⟩
  · intro hnone
    rcases s.evaluate_cases p w with ⟨-, e⟩ | ⟨b, x, hb, hx, -⟩
    · refine ⟨by rw [e]; exact hmiss w.heap, ?_⟩
      unfold ran
      rw [hnone]
      exact hruns w.heap
    · rw [hb, Option.bind_some, hx] at hnone
      cases hnone
  · intro x hx
    rcases s.evaluate_cases p w with ⟨hnone, -⟩ | ⟨b, x', hb, hx', hcases⟩
    · rw [hnone] at hx
      cases hx
    · rw [hb, Option.bind_some, hx'] at hx
      cases hx
      have hran : s.ran p w = [x] := by
        unfold ran
        rw [hb, Option.bind_some, hx']
        simp only
        split
        · exact congrArg _ (hruns w.heap)
        · rfl
      refine ⟨hran, ?_⟩
      rcases hcases with ⟨hstale, e⟩ | ⟨hstale, s', -, e⟩ <;> rw [e]
      · exact .inl ⟨hstale, hmiss _⟩
      · exact .inr ⟨hstale, rfl⟩

/-- **A caller stays backed** while what the engine knows is kept. -/
theorem Caller.Backed.run {b : Caller} {s : Session} {i : Nat} (h : b.Backed s.registry (s.memory i))
    (hk : (s.memory i).InOrder) {es : List Session.Event} (hes : ∀ e ∈ es, e.Keeps i) :
    b.Backed (s.run es).registry ((s.run es).memory i) := by
  induction es generalizing s with
  | nil => exact h
  | cons e rest ih =>
    have he := hes e List.mem_cons_self
    obtain ⟨hr, hrecalls⟩ :=
      Session.recalls_step hk (e := e) (by rintro D rfl; exact he) (by rintro c rfl; exact he rfl)
    exact ih (h.later hr hrecalls) (Session.invariant_inOrder.step hk e) fun e he => hes e (List.mem_cons_of_mem _ he)

namespace Session

/-- The property that an evaluation reads or writes, and in which style. -/
def Use.property? : Use → Option (AccessStyle × Value)
  | read _ style _ key | write _ style _ key _ => some (style, key)
  | call .. => none

variable {s : Session} {i : Nat} {p : Place} {b : Binding} {u : Use} {x : Access} {a : AmbiguousCall}

/-! ## What an evaluation does with a tie -/

/-- An evaluation shows a tie: it fails with it, and runs no member. -/
def Shows (s : Session) (i : Nat) (u : Use) (a : AmbiguousCall) : Prop :=
  (s.use i u).1 = .error (.ambiguous a) ∧ s.ran i u = []

/-- An evaluation uses an access instead of showing a tie. Only a field that refuses leads to the tie after all. -/
def Hides (s : Session) (i : Nat) (u : Use) (a : AmbiguousCall) (x : Access) : Prop :=
  s.ran i u = [x] ∧
    ((x.attempt s.heap).1 = .ok .stale ∧ (s.use i u).1 = .error (.ambiguous a) ∨
      (x.attempt s.heap).1 ≠ .ok .stale ∧ (s.use i u).1 = (x.run s.heap).1.map some)

/-- A search whose answer is taken further ties when it does. -/
theorem tied_of_map {α β : Type} {S : Search (Option α)} {f : α → β} {k : Introspector}
    (h : ((do pure ((← S).map f) : Search (Option β)) k).1 = .error a) : (S k).1 = .error a := by
  rw [Search.map_apply] at h
  cases hs : (S k).1 with
  | error a' =>
    rw [hs] at h
    cases h
    rfl
  | ok found =>
    rw [hs] at h
    cases h

/-- **What an evaluation does whose search ties**: it shows the tie when no binding that the site remembers applies,
and otherwise uses the binding; the site remembers what it remembered. -/
theorem use_tied (htie : (u.discovery.search (s.engines i) s.registry (s.memory i)).1 = .error a) :
    ((s.cached u.place).bind u.replay? = none → s.Shows i u a) ∧
      (∀ {x}, (s.cached u.place).bind u.replay? = some x → s.Hides i u a x) ∧
      (s.use i u).2.cached u.place = s.cached u.place := by
  cases u with
  | read n style target key =>
    have hfound : (s.readPlan i style target key).found (s.world i) = .error a := tied_of_map htie
    have hreplay : (s.cached (.read n)).bind (Use.read n style target key).replay? =
        (s.readSites n).cached.bind (s.readPlan i style target key).replay? := by
      simp only [cached]
      cases (s.readSites n).cached <;> rfl
    obtain ⟨hshows, hhides, hcached⟩ := Site.evaluate_tied (s := s.readSites n) hfound
    refine ⟨fun h => hshows (hreplay ▸ h), fun h => hhides (hreplay ▸ h), ?_⟩
    simp only [Use.place, use, cached, Function.update_self]
    rw [hcached]
  | write n style target key v =>
    have hfound : (s.writePlan i style target key v).found (s.world i) = .error a := tied_of_map htie
    have hreplay : (s.cached (.write n)).bind (Use.write n style target key v).replay? =
        (s.writeSites n).cached.bind (s.writePlan i style target key v).replay? := by
      simp only [cached]
      cases (s.writeSites n).cached <;> rfl
    obtain ⟨hshows, hhides, hcached⟩ := Site.evaluate_tied (s := s.writeSites n) hfound
    refine ⟨fun h => hshows (hreplay ▸ h), fun h => hhides (hreplay ▸ h), ?_⟩
    simp only [Use.place, use, cached, Function.update_self]
    rw [hcached]
  | call n target name args =>
    have hfound : (s.callPlan target name args).found (s.world i) = .error a := tied_of_map htie
    have hreplay : (s.cached (.call n)).bind (Use.call n target name args).replay? =
        (s.callSites n).cached.bind (s.callPlan target name args).replay? := by
      simp only [cached]
      cases (s.callSites n).cached <;> rfl
    obtain ⟨hshows, hhides, hcached⟩ := Site.evaluate_tied (s := s.callSites n) hfound
    refine ⟨fun h => hshows (hreplay ▸ h), fun h => hhides (hreplay ▸ h), ?_⟩
    simp only [Use.place, use, cached, Function.update_self]
    rw [hcached]

/-! ## Bindings that do not hide a tie -/

/-- **What a site remembers has been taken up** by an evaluation there, if the site remembered nothing before. -/
theorem taken_up {es : List Event} (hempty : s.cached p = none) (h : (s.run es).cached p = some b) :
    ∃ before j u after, es = before ++ .use j u :: after ∧ u.place = p ∧ (s.run before).TakesUp j u b := by
  induction es using List.reverseRecOn with
  | nil =>
    rw [show s.run [] = s from rfl, hempty] at h
    cases h
  | append_singleton es e ih =>
    rw [run_concat] at h
    rcases cached_step e h with hc | ⟨j, u, rfl, hplace, htaken⟩
    · obtain ⟨before, j, u, after, rfl, hplace, htaken⟩ := ih hc
      exact ⟨before, j, u, after ++ [e], by simp, hplace, htaken⟩
    · exact ⟨es, j, u, [], rfl, hplace, htaken⟩

/-- **A settled binding that applies** is what the search finds, so the search does not tie. -/
theorem Settled.found_of_replay? {e : Expression} (h : Settled e s.registry (s.engines i) b)
    (hinit : Registry.initial.GrowsTo s.registry) (hk : (s.memory i).InOrder) (he : u.expression? = some e)
    (hx : u.replay? b = some x) :
    (u.discovery.search (s.engines i) s.registry (s.memory i)).1 = .ok (some b) := by
  obtain ⟨hcls, hfield⟩ : u.target.cls = b.cls ∧ (u.target.isNull = true → ∃ f, b.member? = some (.field f)) := by
    cases u with
    | call => cases he
    | read n style target key =>
      cases b with
      | writer | caller | creator => cases hx
      | reader b =>
        obtain ⟨hcls, hfamily, -⟩ := Reader.of_replay? hx
        exact ⟨hcls, fun hnull => ReadRoute.member?_of_family (hfamily hnull)⟩
    | write n style target key v =>
      cases b with
      | reader | caller | creator => cases hx
      | writer b =>
        obtain ⟨hcls, hfamily, -⟩ := Writer.of_replay? hx
        exact ⟨hcls, fun hnull => WriteRoute.member?_of_family (hfamily hnull)⟩
  exact h.found (.refl _) rfl hk (.refl _ _) he (h.isNull_of_cls hinit hcls hfield) hcls

/-- What may happen while a site is used through one engine, for one property in one style unless it is a site for
calls: no class is retired, and no map of the engine is purged. -/
def Event.Confined (i : Nat) (u : Use) (e : Event) : Prop :=
  e.Keeps i ∧ ∀ j u', e = .use j u' → u'.place = u.place → j = i ∧ u'.property? = u.property?

/-- During some events the site of a write has taken up a binding for a value of another type. -/
def TakenForOther (s : Session) (es : List Event) (i : Nat) (u : Use) (b : Binding) : Prop :=
  ∃ n style target key v, u = .write n style target key v ∧
    ∃ earlier target' v' later, es = earlier ++ .use i (.write n style target' key v') :: later ∧ v'.type ≠ v.type ∧
      (s.run earlier).TakesUp i (.write n style target' key v') b

/-- **What hides a tie** is a writer that was taken up for a value of another type. -/
theorem takenForOther_of_tied {es : List Event} (hk : (s.memory i).InOrder)
    (hground : s.registry.Proper ∧ Registry.initial.GrowsTo s.registry ∧ (s.memory i).Grounded s.registry)
    (hempty : s.cached u.place = none) (hes : ∀ e ∈ es, e.Confined i u) (hb : (s.run es).cached u.place = some b)
    (hx : u.replay? b = some x)
    (htie : (u.discovery.search ((s.run es).engines i) (s.run es).registry ((s.run es).memory i)).1 = .error a) :
    s.TakenForOther es i u b := by
  obtain ⟨earlier, j, u', later, rfl, hplace, htaken⟩ := taken_up hempty hb
  obtain ⟨-, hconfined⟩ := hes (.use j u') (by simp)
  obtain ⟨rfl, hproperty⟩ := hconfined j u' rfl hplace
  -- the session when the binding was taken up, and right after that
  have hk₁ : ((s.run earlier).memory j).InOrder := invariant_inOrder.run hk earlier
  obtain ⟨hp₁, hinit₁, hgrounded₁⟩ := invariant_grounded.run hground earlier
  have hk₂ : (((s.run earlier).step (.use j u')).memory j).InOrder := invariant_inOrder.step hk₁ _
  have hlater : ∀ e ∈ later, e.Keeps j := fun e he => (hes e (by simp [he])).1
  have hrun : s.run (earlier ++ .use j u' :: later) = ((s.run earlier).step (.use j u')).run later :=
    s.run_append earlier (.use j u' :: later)
  rw [hrun] at htie
  have hk₃ := invariant_inOrder.run hk₂ later
  have hinit₃ : Registry.initial.GrowsTo (((s.run earlier).step (.use j u')).run later).registry :=
    (hinit₁.trans (growsTo_step _ _)).trans (growsTo_run _ later)
  -- an expression that has not changed finds the binding again
  have hsame : ∀ e, u'.expression? = some e → u.expression? = some e → False := by
    intro e he' he
    have hsettled := (htaken.settled hp₁ hinit₁ hk₁ hgrounded₁ he').run hk₂ hlater
    rw [hsettled.found_of_replay? hinit₃ hk₃ he hx] at htie
    cases htie
  cases u with
  | read n style target key =>
    cases u' with
    | write | call => cases hplace
    | read m style' target' key' =>
      cases hproperty
      exact (hsame (.read style key) rfl rfl).elim
  | write n style target key v =>
    cases u' with
    | read | call => cases hplace
    | write m style' target' key' v' =>
      cases hplace
      cases hproperty
      refine ⟨n, style, target, key, v, rfl, earlier, target', v', later, rfl, ?_, htaken⟩
      intro htype
      refine (hsame (.write style key v.type) ?_ rfl).elim
      simp only [Use.expression?, htype]
  | call n target name args =>
    cases u' with
    | read | write => cases hplace
    | call m target' name' args' =>
      cases b with
      | reader | writer | creator => cases hx
      | caller b =>
        have hbacked := (htaken.backed hk₁).run hk₂ hlater
        have hfound := tied_of_map htie
        rw [(hbacked.findCaller hk₃ hx).1] at hfound
        cases hfound

/-- **When a site shows a tie**: in any run, take an evaluation whose search ties. It shows the tie exactly when no
binding that its site remembers applies; a binding that applies is used instead. If the site remembered nothing at
some time, and since then no class was retired, no map of the engine was purged, and the site was used through this
engine, for one property in one style unless it is a site for calls, then such a binding is a writer, and was taken up
for a value of another type: sites that read and sites for calls show every tie. The site remembers what it
remembered. -/
theorem shows_tie_iff (policy : Nat → Policy) (strategy : Nat → Strategy) (heap : Heap) (before es : List Event)
    (i : Nat) (u : Use) (a : AmbiguousCall) :
    let s := (start policy strategy heap).run before
    let now := s.run es
    (u.discovery.search (now.engines i) now.registry (now.memory i)).1 = .error a →
      (now.Shows i u a ↔ (now.cached u.place).bind u.replay? = none) ∧
        (∀ b x, now.cached u.place = some b → u.replay? b = some x → now.Hides i u a x ∧
          (s.cached u.place = none → (∀ e ∈ es, e.Confined i u) → s.TakenForOther es i u b)) ∧
        (now.use i u).2.cached u.place = now.cached u.place := by
  intro s now htie
  obtain ⟨hshows, hhides, hcached⟩ := use_tied htie
  refine ⟨⟨?_, hshows⟩, ?_, hcached⟩
  · rintro ⟨-, hran⟩
    cases happly : (now.cached u.place).bind u.replay? with
    | none => rfl
    | some x =>
      rw [(hhides happly).1] at hran
      cases hran
  · intro b x hb hx
    have happly : (now.cached u.place).bind u.replay? = some x := by rw [hb, Option.bind_some, hx]
    refine ⟨hhides happly, fun hempty hes => ?_⟩
    have hk : (s.memory i).InOrder :=
      invariant_inOrder.run (s := start policy strategy heap) (Introspector.inOrder_new (policy i)) before
    exact takenForOther_of_tied hk (grounded_run policy strategy heap before i) hempty hes hb hx htie

/-- A class with two methods to write one property, for texts and for ints. -/
def form : ClassDecl :=
  ((ClassDecl.ofName "t.Form").method "setName" [.string] .null .answersNull).method "setName" [.ofClass .integer]
    .null .answersNull

/-- Writing that property of an object of the class. -/
def rename (v : Value) : Use := .write 0 .dot (.object ⟨0, ⟨19⟩⟩) (.string "name") v

/-- The class has been registered. -/
def printed : Session := (start (fun _ => .unrestricted) (fun _ => .pojo) {}).run [.change (.register form)]

/-- A text is written. -/
def filling : List Event := [.use 0 (rename (.string "a"))]

def filled : Session := printed.run filling

/-- The tie between the methods for null. -/
def formTie : AmbiguousCall where
  cls := "t.Form"
  call := "setName(null)"
  candidates := ["setName(kiln.lang.String)", "setName(kiln.lang.Integer)"]

theorem filled_tied :
    ((rename .null).discovery.search (filled.engines 0) filled.registry (filled.memory 0)).1 = .error formTie :=
  rfl

/-- The method for texts, which the site remembers. -/
def setText : Method := ⟨⟨"setName", [.string], .null, .shown, .answersNull⟩, ⟨⟨19⟩, 0⟩⟩

theorem shows_tie_iff_form :
    ((rename .null).discovery.search (filled.engines 0) filled.registry (filled.memory 0)).1 = .error formTie ∧
      (filled.Shows 0 (rename .null) formTie ↔
        (filled.cached (rename .null).place).bind (rename .null).replay? = none) ∧
      (∀ b x, filled.cached (rename .null).place = some b → (rename .null).replay? b = some x →
        filled.Hides 0 (rename .null) formTie x ∧
          (printed.cached (rename .null).place = none →
            (∀ e ∈ filling, e.Confined 0 (rename .null)) → printed.TakenForOther filling 0 (rename .null) b)) ∧
      (filled.use 0 (rename .null)).2.cached (rename .null).place = filled.cached (rename .null).place :=
  ⟨filled_tied, shows_tie_iff (fun _ => .unrestricted) (fun _ => .pojo) {} [.change (.register form)] filling 0
    (rename .null) formTie filled_tied⟩

/-- The method for texts takes null, so the site does not show that the method for ints would take it as well. -/
theorem not_shows_tie :
    ¬ ∀ (policy : Nat → Policy) (strategy : Nat → Strategy) (heap : Heap) (before es : List Event) (i : Nat) (u : Use)
        (a : AmbiguousCall),
      let s := (start policy strategy heap).run before
      let now := s.run es
      s.cached u.place = none → (∀ e ∈ es, e.Confined i u) →
        (u.discovery.search (now.engines i) now.registry (now.memory i)).1 = .error a → now.Shows i u a := by
  intro h
  have hconfined : ∀ e ∈ filling, e.Confined 0 (rename .null) := by
    intro e he
    rw [List.mem_singleton.1 he]
    refine ⟨trivial, ?_⟩
    rintro j u' hu -
    cases hu
    exact ⟨rfl, rfl⟩
  obtain ⟨-, hnone⟩ := h (fun _ => .unrestricted) (fun _ => .pojo) {} [.change (.register form)] filling 0
    (rename .null) formTie rfl hconfined filled_tied
  have hran : filled.ran 0 (rename .null) = [.store setText (.object ⟨0, ⟨19⟩⟩) [.null] .null] := rfl
  cases hran.symm.trans hnone

end Session

end MemberAccess
