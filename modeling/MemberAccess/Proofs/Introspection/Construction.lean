import MemberAccess.Proofs.Introspection.History
import MemberAccess.Proofs.Introspection.Denial
import MemberAccess.Proofs.Overload.Collision
import MemberAccess.Proofs.Registry.Reach

/-!
# Constructors and methods

A class may declare, for each of its constructors, a method with the same parameters, all of one name. Whoever calls
the methods meets the index of the class, in which the first method of each signature stands, and whoever makes an
instance has all constructors ranked. Up to boxing these may have the same parameters, and then the two part.

* `lookupAmong_eq_settle`: what is found among declarations of one name.
* `ClassDef.asMethod`, `Registry.naming`: the methods of one name that stand for the constructors of a class.
* `Introspector.findMethod_naming`, `Coherent.findConstructor_answer`: what is found among those methods, and among the
  constructors.
* `ClassDef.Compared`: when constructors are found like methods, by calls and by classes.
* `View.constructors_alike`: so they are, after any history.
* `View.not_constructors_alike`: they are not always.
-/

namespace MemberAccess

variable {P : Policy} {r : Registry}

/-! ## Declarations of one name -/

/-- Only the declarations of the name that is looked for play a part. -/
theorem lookupAmong_ofName (D : List Declaration) (s : Signature) :
    P.lookupAmong r (D.filter (·.method.name = s.name)) s = P.lookupAmong r D s := by
  have hfind : (D.filter (·.method.name = s.name)).find? (·.signature = s) = D.find? (·.signature = s) := by
    rw [List.find?_filter]
    apply List.find?_congr
    intro x _
    by_cases hs : x.signature = s
    · have hname : x.method.name = s.name := congrArg Signature.name hs
      simp [hs, hname]
    · simp [hs]
  -- of two declarations with one signature, both have the name or none has it
  have hnearest : (nearest (D.filter (·.method.name = s.name))).filter (·.method.name = s.name) =
      (nearest D).filter (·.method.name = s.name) := by
    rw [filter_nearest _ D]
    refine List.filter_congr fun y hy => ?_
    have hname := (List.mem_filter.1 (mem_of_mem_nearest hy)).2
    rw [hname, eq_comm, Option.all_eq_true]
    intro x hx
    have hsame : x.signature = y.signature := by simpa using List.find?_some hx
    have hnames : x.method.name = y.method.name := congrArg Signature.name hsame
    simpa [hnames] using hname
  have hreach : P.reach (D.filter (·.method.name = s.name)) s.name = P.reach D s.name := by
    unfold Policy.reach
    simp only [List.filter_map, Function.comp_def]
    rw [List.filter_comm, hnearest, List.filter_comm]
  unfold Policy.lookupAmong
  rw [hfind, hreach]

/-- Declarations that come once more change nothing. -/
theorem lookupAmong_append {X Y : List Declaration} (h : Y ⊆ X) (s : Signature) :
    P.lookupAmong r (X ++ Y) s = P.lookupAmong r X s := by
  have hfind : (X ++ Y).find? (·.signature = s) = X.find? (·.signature = s) := by
    rw [List.find?_append]
    cases hX : X.find? (·.signature = s) with
    | some x => rfl
    | none =>
      rw [List.find?_eq_none] at hX
      rw [Option.none_or, List.find?_eq_none]
      exact fun y hy => hX y (h hy)
  have hnearest : nearest (X ++ Y) = nearest X := by
    have hnothing : (firsts (·.signature) Y).filter (fun y => ∀ x ∈ X, y.signature ≠ x.signature) = [] := by
      rw [List.filter_eq_nil_iff]
      intro y hy
      simpa using ⟨y, h ((firsts_sublist _ Y).subset hy), rfl⟩
    rw [nearest_eq_firsts, nearest_eq_firsts, firsts_append, hnothing, List.append_nil]
  unfold Policy.lookupAmong Policy.reach
  rw [hfind, hnearest]

theorem lookupAmong_of_denied {D : List Declaration} (h : ∀ x ∈ D, x.allowed P = false) (s : Signature) :
    P.lookupAmong r D s = .miss := by
  have hreach : P.reach D s.name = [] := by
    have hnone : (nearest D).filter (·.allowed P) = [] :=
      List.filter_eq_nil_iff.2 fun x hx => by simp [h x (mem_of_mem_nearest hx)]
    unfold Policy.reach
    rw [hnone]
    rfl
  unfold Policy.lookupAmong
  rw [hreach]
  cases hfind : D.find? (·.signature = s) with
  | none => rfl
  | some x => simp [Declaration.outcome, h x (List.mem_of_find?_eq_some hfind)]

/-- **What is found among allowed declarations of one name** is what is settled among their methods. -/
theorem lookupAmong_eq_settle {D : List Declaration} {s : Signature} (hname : ∀ x ∈ D, x.method.name = s.name)
    (hallowed : ∀ x ∈ D, x.allowed P = true) :
    P.lookupAmong r D s = .ofChoice (fun m => r.describe m.name m.params)
      (settle r (·.params) s.params (D.map (·.method))) := by
  have hsignature : ∀ x ∈ D, x.signature = ⟨s.name, collapsed x.method.params⟩ := by
    intro x hx
    rw [← hname x hx]
    rfl
  have hfind : D.find? (·.signature = s) = D.find? fun x => collapsed x.method.params = s.params := by
    apply List.find?_congr
    intro x hx
    rw [hsignature x hx]
    obtain ⟨name, params⟩ := s
    simp
  have hreach : P.reach D s.name = leading (·.params) (D.map (·.method)) := by
    have hnearest : nearest D = firsts (fun x => collapsed x.method.params) D := by
      rw [nearest_eq_firsts]
      refine firsts_congr fun x hx y hy => ?_
      rw [hsignature x hx, hsignature y hy, Signature.mk.injEq]
      exact and_iff_right rfl
    have hall : ((nearest D).filter (·.allowed P)) = nearest D :=
      List.filter_eq_self.2 fun x hx => hallowed x (mem_of_mem_nearest hx)
    have hnamed : ((nearest D).map (·.method)).filter (·.name = s.name) = (nearest D).map (·.method) := by
      rw [List.filter_eq_self]
      intro m hm
      obtain ⟨x, hx, rfl⟩ := List.mem_map.1 hm
      exact decide_eq_true (hname x (mem_of_mem_nearest hx))
    unfold Policy.reach leading
    rw [hall, hnamed, hnearest, firsts_map]
  unfold Policy.lookupAmong settle
  rw [hfind, hreach, List.find?_map]
  simp only [Function.comp_def]
  cases hx : D.find? fun x => collapsed x.method.params = s.params with
  | none => rfl
  | some x => simp [Declaration.outcome, hallowed x (List.mem_of_find?_eq_some hx), Lookup.ofChoice]

/-! ## Answers that come from a choice -/

namespace Choice

variable {α : Type}

/-- An answer that comes from a choice: what is chosen, nothing where there is no candidate, and a failure where
several tie. -/
def Tells : Choice α → Except AmbiguousCall (Option α) → Prop
  | none, .ok m => m = .none
  | one a, .ok m => m = some a
  | tie _, .error _ => True
  | _, _ => False

theorem tells_answer {describe : α → String} {cls : String} {s : Signature} (choice : Choice α) :
    choice.Tells ((Lookup.ofChoice describe choice).answer r cls s) := by
  cases choice <;> simp [Lookup.ofChoice, Lookup.answer, Tells]

variable {choice : Choice α} {answer : Except AmbiguousCall (Option α)}

theorem Tells.eq_none_iff (h : choice.Tells answer) : answer = .ok .none ↔ choice = .none := by
  cases choice <;> cases answer <;> simp_all [Tells]

theorem Tells.eq_some_iff (h : choice.Tells answer) {a : α} : answer = .ok (some a) ↔ choice = .one a := by
  cases choice <;> cases answer <;> simp_all [Tells, eq_comm]

theorem Tells.error_iff (h : choice.Tells answer) : (∃ e, answer = .error e) ↔ ∃ tied, choice = .tie tied := by
  cases choice <;> cases answer <;> simp_all [Tells]

end Choice

/-! ## Constructors as methods -/

namespace ClassDef

/-- A constructor of a class as a method of it. Its place is behind the methods that the class has. -/
def asMethod (d : ClassDef) (name : String) (x : Constructor) : Method where
  name := name
  params := x.params
  returns := .ofClass x.declaring
  modifiers := x.modifiers
  body := fun _ args => x.make args
  id := ⟨x.declaring, d.methods.length + x.id.position⟩

/-- What is answered about a constructor, and about the method in its place: this very method, no method where there
is no constructor, and several where there are several. -/
def Alike (d : ClassDef) (name : String) :
    Except AmbiguousCall (Option Constructor) → Except AmbiguousCall (Option Method) → Prop
  | .ok x, .ok m => m = x.map (d.asMethod name)
  | .error _, .error _ => True
  | _, _ => False

theorem asMethod_injective {d : ClassDef} {name : String} {x y : Constructor}
    (h : d.asMethod name x = d.asMethod name y) : x = y := by
  obtain ⟨⟨params, modifiers, make⟩, ⟨declaring, position⟩⟩ := x
  obtain ⟨⟨params', modifiers', make'⟩, ⟨declaring', position'⟩⟩ := y
  simp only [asMethod, Constructor.declaring, Method.mk.injEq, MethodDecl.mk.injEq, MemberId.mk.injEq] at h
  obtain ⟨⟨-, rfl, -, rfl, hbody⟩, rfl, hposition⟩ := h
  have hmake : make = make' := congrFun hbody .null
  have hplace : position = position' := by omega
  rw [hmake, hplace]

/-- Answers are alike that come from choices that agree. -/
theorem alike_iff {d : ClassDef} {name : String} {ranked settled : Choice Constructor}
    {made : Except AmbiguousCall (Option Constructor)} {called : Except AmbiguousCall (Option Method)}
    (hmade : ranked.Tells made) (hcalled : (settled.map (d.asMethod name)).Tells called) :
    d.Alike name made called ↔ ranked.Agrees settled := by
  cases ranked <;> cases settled <;> cases made <;> cases called <;>
    simp_all [Choice.Tells, Choice.map, Choice.Agrees, Alike]
  exact ⟨fun h => (asMethod_injective h).symm, fun h => h ▸ rfl⟩

theorem Alike.isOk_eq {d : ClassDef} {name : String} {made : Except AmbiguousCall (Option Constructor)}
    {called : Except AmbiguousCall (Option Method)} (h : d.Alike name made called) : made.isOk = called.isOk := by
  cases made with
  | ok => cases called with
    | ok => rfl
    | error => exact h.elim
  | error => cases called with
    | ok => exact h.elim
    | error => rfl

end ClassDef

/-- The methods of a class, and for one class those behind them that stand for its constructors. -/
def ClassDef.naming (c : ClassId) (name : String) (d : ClassDef) : List Method :=
  if d.id = c then d.methods ++ d.constructors.map (d.asMethod name) else d.methods

/-- The registry in which one class declares a method of some name for each of its constructors, with the same
parameters and in the same order. -/
def Registry.naming (r : Registry) (c : ClassId) (name : String) : Registry := r.withMethods (ClassDef.naming c name)

/-- The public methods that stand for the constructors of a class. -/
def Policy.makers (P : Policy) (name : String) (d : ClassDef) : List Method :=
  if d.isPublic && P.allowsClass d then (d.constructors.map (d.asMethod name)).filter (·.isPublic) else []

/-- Of an unused name, a class offers nothing but the methods that stand for constructors. -/
theorem offers_naming {c : ClassId} {name : String} {d : ClassDef} (hunused : ∀ m ∈ d.methods, m.name ≠ name) :
    (P.offers (d.withMethods (ClassDef.naming c name))).filter (·.name = name) =
      if d.id = c then P.makers name d else [] := by
  have hnone : d.methods.filter (·.name = name) = [] :=
    List.filter_eq_nil_iff.2 fun m hm => by simpa using hunused m hm
  have hnamed : (d.constructors.map (d.asMethod name)).filter (·.name = name) =
      d.constructors.map (d.asMethod name) := by
    rw [List.filter_eq_self]
    intro m hm
    obtain ⟨x, -, rfl⟩ := List.mem_map.1 hm
    exact decide_eq_true rfl
  unfold Policy.offers Policy.makers
  rw [Policy.allowsClass_withMethods]
  change (if d.isPublic && _ then ((ClassDef.naming c name d).filter (·.isPublic)) else _).filter _ = _
  unfold ClassDef.naming
  cases d.isPublic && P.allowsClass d with
  | false => simp
  | true =>
    simp only [if_true]
    rw [List.filter_comm]
    split
    · rw [List.filter_append, hnone, hnamed, List.nil_append]
    · rw [hnone]
      rfl

/-- Along some classes, too. -/
theorem declarations_naming {c : ClassId} {name : String} {L : List ClassDef}
    (hunused : ∀ d ∈ L, ∀ m ∈ d.methods, m.name ≠ name) :
    (P.declarations (L.map (·.withMethods (ClassDef.naming c name)))).filter (·.method.name = name) =
      (L.flatMap fun d => (if d.id = c then P.makers name d else []).map (.mk d)).map fun x : Declaration =>
        ⟨x.cls.withMethods (ClassDef.naming c name), x.method⟩ := by
  induction L with
  | nil => rfl
  | cons d rest ih =>
    rw [List.map_cons, declarations_cons, List.filter_append, ih fun d hd => hunused d (List.mem_cons_of_mem _ hd),
      List.flatMap_cons, List.map_append, ← offers_naming (hunused d List.mem_cons_self)]
    simp only [Policy.declarations, List.flatMap_cons, List.flatMap_nil, List.append_nil, List.filter_map, List.map_map]
    rfl

theorem flatMap_ite {α β : Type} {p : α → Prop} [DecidablePred p] {l : List α} {a : α} (ha : a ∈ l) (hp : p a)
    (X : List β) : ∃ Y ⊆ X, l.flatMap (fun a => if p a then X else []) = X ++ Y := by
  induction l with
  | nil => cases ha
  | cons b rest ih =>
    rw [List.flatMap_cons]
    by_cases hb : p b
    · rw [if_pos hb]
      refine ⟨_, fun x hx => ?_, rfl⟩
      obtain ⟨c, -, hc⟩ := List.mem_flatMap.1 hx
      split at hc
      · exact hc
      · cases hc
    · rw [if_neg hb, List.nil_append]
      rcases List.mem_cons.1 ha with rfl | ha
      · exact absurd hp hb
      · exact ih ha

/-- Among what the class with these methods has to offer, of their name there are only these. -/
theorem lookupAmong_naming (hp : r.Proper) {d : ClassDef} {name : String} (hd : r.class? d.id = some d)
    (halive : r.isAlive d.id = true) (hallow : P.allowsClass d = true)
    (hunused : ∀ e ∈ r.classes, ∀ m ∈ e.methods, m.name ≠ name) {s : Signature} (hs : s.name = name) :
    P.lookupAmong (r.naming d.id name) (P.offered (r.naming d.id name) d.id) s =
      P.lookupAmong r ((P.makers name d).map (.mk d)) s := by
  have hoffered : P.offered (r.naming d.id name) d.id =
      P.declarations ((r.lineage d).map (·.withMethods (ClassDef.naming d.id name))) := by
    unfold Policy.offered Registry.naming
    rw [r.class?_withMethods, hd, Option.map_some]
    simp only
    rw [Policy.allowsClass_withMethods, r.lineage_withMethods]
    exact if_pos (by rw [hallow, Bool.and_true]; exact halive)
  have hknown : ∀ e ∈ r.lineage d, ∃ c, r.class? c = some e := by
    intro e he
    obtain ⟨c, hc, -⟩ := (Registry.mem_lineage_iff hp hd).1 he
    exact ⟨c, hc⟩
  -- the class stands in its lineage, and what else has its identity is the class again
  have hself : d ∈ r.lineage d := (Registry.mem_lineage_iff hp hd).2 ⟨d.id, hd, .refl _ _⟩
  obtain ⟨again, hagain, hflat⟩ := flatMap_ite (p := fun e : ClassDef => e.id = d.id) hself rfl
    ((P.makers name d).map (Declaration.mk d))
  have hmakers : ((r.lineage d).flatMap fun e => (if e.id = d.id then P.makers name e else []).map (Declaration.mk e)) =
      (P.makers name d).map (.mk d) ++ again := by
    rw [← hflat]
    apply List.flatMap_congr
    intro e he
    obtain ⟨c, hc⟩ := hknown e he
    split
    · rename_i hid
      rw [← hp.id hc, hid, hd] at hc
      rw [Option.some.inj hc]
    · rfl
  subst hs
  rw [← lookupAmong_ofName, hoffered, declarations_naming fun e he => ?_, hmakers]
  · exact (lookupAmong_withMethods _ _ s).trans (lookupAmong_append hagain s)
  · obtain ⟨c, hc⟩ := hknown e he
    exact hunused e (Registry.mem_classes_iff.2 ⟨c, hc⟩)

/-- For a class that is public and allowed, these are all that stand for public constructors. -/
theorem Policy.makers_eq {d : ClassDef} {name : String} (hpublic : d.isPublic = true)
    (hallow : P.allowsClass d = true) : P.makers name d = (d.constructors.filter (·.isPublic)).map (d.asMethod name) := by
  unfold makers
  rw [hpublic, hallow, List.filter_map]
  rfl

namespace Introspector

theorem shownConstructors_eq {d : ClassDef} (hallow : P.allowsClass d = true) :
    ({ policy := P } : Introspector).shownConstructors d =
      if P.deniesMember d .method d.name then [] else d.constructors.filter (·.isPublic) := by
  unfold shownConstructors Policy.allowsConstructor
  rw [hallow]
  cases P.deniesMember d .method d.name <;> simp

/-- **What is found among the methods that stand for the constructors** of a class is the one for the constructor that
is settled on, among those that are shown. -/
theorem findMethod_naming (hp : r.Proper) {d : ClassDef} {name : String} (hd : r.class? d.id = some d)
    (hmake : ({ policy := P } : Introspector).constructible r d = true)
    (hunused : ∀ e ∈ r.classes, ∀ m ∈ e.methods, m.name ≠ name)
    (hverdict : P.deniesMember d .method name = P.deniesMember d .method d.name) (args : List Value) :
    let k : Introspector := { policy := P }
    ((settle r (·.params) (args.map (·.type)) (k.shownConstructors d)).map (d.asMethod name)).Tells
      (k.findMethod (r.naming d.id name) d.id (.ofArgs name args)).1 := by
  obtain ⟨⟨⟨halive, hpublic⟩, -⟩, hallow⟩ : ((r.isAlive d.id = true ∧ d.isPublic = true) ∧ d.isInterface = false) ∧
      P.allowsClass d = true := by simpa [constructible] using hmake
  intro k
  rw [findMethod_unused, lookupAmong_naming hp hd halive hallow hunused rfl]
  have hmakers : P.makers name d = _ := Policy.makers_eq hpublic hallow
  have hallowed : ∀ x ∈ (P.makers name d).map (Declaration.mk d),
      x.allowed P = !P.deniesMember d .method d.name := by
    intro x hx
    obtain ⟨m, hm, rfl⟩ := List.mem_map.1 hx
    rw [hmakers] at hm
    obtain ⟨k, -, rfl⟩ := List.mem_map.1 hm
    unfold Declaration.allowed Policy.allowsMethod
    rw [hallow, ← hverdict]
    rfl
  have hshown : k.shownConstructors d = _ := shownConstructors_eq hallow
  cases hdenies : P.deniesMember d .method d.name with
  | true =>
    rw [lookupAmong_of_denied fun x hx => by rw [hallowed x hx, hdenies]; rfl]
    rw [hshown, hdenies]
    trivial
  | false =>
    rw [lookupAmong_eq_settle (fun x hx => ?_) fun x hx => by rw [hallowed x hx, hdenies]; rfl]
    · rw [hshown, hdenies, List.map_map]
      have hmethods : (P.makers name d).map ((·.method) ∘ Declaration.mk d) =
          (d.constructors.filter (·.isPublic)).map (d.asMethod name) := by
        rw [hmakers]
        exact List.map_id _
      rw [hmethods, settle_map]
      exact Choice.tells_answer _
    · obtain ⟨m, hm, rfl⟩ := List.mem_map.1 hx
      rw [hmakers] at hm
      obtain ⟨k, -, rfl⟩ := List.mem_map.1 hm
      rfl

/-- **What a coherent memory answers about the constructors** of a class is what ranking those that are shown comes
to. -/
theorem Coherent.findConstructor_answer {k : Introspector} (hp : r.Proper) (h : k.Coherent P r) {name : String}
    {d : ClassDef} (hd : r.named? name = some d) (hfree : ¬r.Overtaken name)
    (hmake : ({ policy := P } : Introspector).constructible r d = true) (args : List Value) :
    (choose r (·.params) (args.map (·.type)) (({ policy := P } : Introspector).shownConstructors d)).Tells
      (k.findConstructor r name args).1 := by
  have hmake' : k.constructible r d = true := by
    rw [← hmake]
    unfold constructible
    rw [h.policy]
  unfold Introspector.findConstructor
  simp only [hd, hmake', if_true]
  rw [h.constructorLookup hp hd hfree args]
  exact Choice.tells_answer _

end Introspector

/-! ## When constructors are found like methods -/

/-- There are arguments of all types, primitives boxed. -/
theorem Value.exists_types (ts : List Ty) : ∃ args : List Value, args.map (·.type) = collapsed ts := by
  have hboxed : ∀ p : Primitive, ∃ v : Value, v.type = .ofClass p.boxed := by
    intro p
    cases p
    exacts [⟨.bool false, rfl⟩, ⟨.char 'a', rfl⟩, ⟨.byte 0, rfl⟩, ⟨.short 0, rfl⟩, ⟨.int 0, rfl⟩, ⟨.long 0, rfl⟩,
      ⟨.float ⟨0⟩, rfl⟩, ⟨.double ⟨0⟩, rfl⟩]
  have hvalue : ∀ t : Ty, ∃ v : Value, v.type = t.normalized := by
    intro t
    cases t with
    | primitive p => exact hboxed p
    | null => exact ⟨.null, rfl⟩
    | ofClass c =>
      cases hb : Primitive.ofBoxed? c with
      | some p =>
        rw [Registry.boxes_of_ofBoxed? hb]
        exact hboxed p
      | none => exact ⟨.object ⟨0, c⟩, rfl⟩
  induction ts with
  | nil => exact ⟨[], rfl⟩
  | cons t rest ih =>
    obtain ⟨v, hv⟩ := hvalue t
    obtain ⟨args, hargs⟩ := ih
    exact ⟨v :: args, by rw [List.map_cons, hv, hargs]; rfl⟩

/-- How what is found among the constructors that a class shows compares with what is found among methods in their
place. -/
structure ClassDef.Compared (r : Registry) (d : ClassDef) (method : String) (shown : List Constructor)
    (made : List Value → Except AmbiguousCall (Option Constructor))
    (called : List Value → Except AmbiguousCall (Option Method)) : Prop where
  /-- when no constructor is found, no method is -/
  none : ∀ args, made args = .ok .none → called args = .ok .none
  /-- when one is found, the method in its place is found if no constructor before it has the same parameters up to
  boxing and it declares the types of the arguments where any does, and only then -/
  one : ∀ args x, made args = .ok (some x) → (called args = .ok (some (d.asMethod method x)) ↔
    x ∈ leading (·.params) shown ∧
      ∀ y ∈ shown, collapsed y.params = args.map (·.type) → collapsed x.params = args.map (·.type))
  /-- where the costs fit, what is found does declare these types -/
  oneFits : ∀ args, (∀ y ∈ shown, Fits r y.params (args.map (·.type))) → ∀ x, made args = .ok (some x) →
    (called args = .ok (some (d.asMethod method x)) ↔ x ∈ leading (·.params) shown)
  /-- the methods tie if none has the very types of the arguments and the first ones of the same parameters tie, and
  only then -/
  tied : ∀ args, (∃ e, called args = .error e) ↔ (∀ x ∈ shown, collapsed x.params ≠ args.map (·.type)) ∧
    ∃ tied, choose r (·.params) (args.map (·.type)) (leading (·.params) shown) = .tie tied
  /-- all calls are answered alike exactly where each constructor is found for the types that it declares -/
  alike : (∀ args, d.Alike method (made args) (called args)) ↔ Declared r (·.params) shown
  /-- where the costs fit, that is where the types that one declares suit no other -/
  alikeFits : (∀ x ∈ shown, ∀ y ∈ shown, Fits r x.params (collapsed y.params)) →
    ((∀ args, d.Alike method (made args) (called args)) ↔ shown.Pairwise (Apart (·.params)))
  /-- of the methods with the same parameters up to boxing, the first is found for these types -/
  same : ∀ x ∈ shown, ∀ args, args.map (·.type) = collapsed x.params → called args =
    .ok ((shown.find? fun y => collapsed y.params = collapsed x.params).map (d.asMethod method))
  /-- but constructors with the same parameters up to boxing tie for them, if none of the types is that of `null` or
  the costs fit -/
  sameTied : ∀ x y, [x, y].Sublist shown → collapsed x.params = collapsed y.params →
    ∀ args, args.map (·.type) = collapsed x.params →
      (.null ∉ collapsed x.params ∨ ∀ z ∈ shown, Fits r z.params (collapsed x.params)) → ∃ e, made args = .error e

section Compared

variable {d : ClassDef} {method : String} {shown : List Constructor} {args : List Value}
  {made : List Value → Except AmbiguousCall (Option Constructor)}
  {called : List Value → Except AmbiguousCall (Option Method)}
  (hmade : ∀ args, (choose r (·.params) (args.map (·.type)) shown).Tells (made args))
  (hcalled : ∀ args, ((settle r (·.params) (args.map (·.type)) shown).map (d.asMethod method)).Tells (called args))

include hcalled

theorem called_eq_some_iff {x : Constructor} : called args = .ok (some (d.asMethod method x)) ↔
    settle r (·.params) (args.map (·.type)) shown = .one x := by
  rw [(hcalled args).eq_some_iff, Choice.map_eq_one_iff]
  exact ⟨fun ⟨y, hy, hsame⟩ => ClassDef.asMethod_injective hsame ▸ hy, fun hx => ⟨x, hx, rfl⟩⟩

theorem called_error_iff : (∃ e, called args = .error e) ↔
    (∀ x ∈ shown, collapsed x.params ≠ args.map (·.type)) ∧
      ∃ tied, choose r (·.params) (args.map (·.type)) (leading (·.params) shown) = .tie tied := by
  rw [(hcalled args).error_iff, Choice.exists_map_eq_tie_iff]
  simp only [settle_eq_tie_iff, exists_and_left]

theorem called_of_declared {x : Constructor} (hx : x ∈ shown) (hargs : args.map (·.type) = collapsed x.params) :
    called args = .ok ((shown.find? fun y => collapsed y.params = collapsed x.params).map (d.asMethod method)) := by
  obtain ⟨z, hz⟩ : ∃ z, shown.find? (fun z => collapsed z.params = collapsed x.params) = some z :=
    Option.isSome_iff_exists.1 (List.find?_isSome.2 ⟨x, hx, by simp⟩)
  rw [hz, Option.map_some, called_eq_some_iff hcalled]
  simp only [settle, hargs, hz]

include hmade

theorem called_of_made_none (h : made args = .ok none) : called args = .ok none := by
  rw [(hcalled args).eq_none_iff, settle_eq_none ((hmade args).eq_none_iff.1 h)]
  rfl

/-- The method in the place of a constructor that is found. -/
theorem called_iff_of_made {x : Constructor} (h : made args = .ok (some x)) :
    called args = .ok (some (d.asMethod method x)) ↔ x ∈ leading (·.params) shown ∧
      ∀ y ∈ shown, collapsed y.params = args.map (·.type) → collapsed x.params = args.map (·.type) := by
  rw [called_eq_some_iff hcalled, settle_eq_one_iff ((hmade args).eq_some_iff.1 h)]

/-- All calls are answered alike exactly where each constructor is found for the types that it declares. -/
theorem all_alike_iff :
    (∀ args, d.Alike method (made args) (called args)) ↔ Declared r (·.params) shown := by
  simp only [ClassDef.alike_iff (hmade _) (hcalled _)]
  refine ⟨fun hall => declared_of_agrees fun x _ => ?_, fun hdeclared args => agrees_of_declared hdeclared _⟩
  obtain ⟨args, hargs⟩ := Value.exists_types x.params
  rw [← hargs]
  exact hall args

theorem ClassDef.compared : d.Compared r method shown made called where
  none _ := called_of_made_none hmade hcalled
  one _ _ := called_iff_of_made hmade hcalled
  oneFits args hfits x hx := by
    rw [called_iff_of_made hmade hcalled hx]
    refine and_iff_left fun y hy hdeclared => ?_
    have hsame := declared_of_choose_one (floored_of_fits hfits) ((hmade args).eq_some_iff.1 hx) hy hdeclared
    rwa [← hsame]
  tied _ := called_error_iff hcalled
  alike := all_alike_iff hmade hcalled
  alikeFits hfits := by
    rw [all_alike_iff hmade hcalled]
    exact ⟨apart_of_declared, declared_of_apart hfits⟩
  same _ hx _ := called_of_declared hcalled hx
  sameTied x y hxy hsame args hargs hcosts := by
    have hfloor : Floored r (fun x : Constructor => x.params) (collapsed x.params) shown :=
      hcosts.elim floored_of_not_mem_null floored_of_fits
    rw [(hmade args).error_iff, hargs]
    exact tie_of_suiting hfloor hxy (suiting_collapsed _) (suiting_of_collapsed_eq hsame.symm)

end Compared

namespace View

/-- **When constructors are found like methods.** Take a class of which instances can be made, after any history in
which no array class has taken over its name, and let it declare methods of an unused name that stand for its
constructors, which the policy denies or shows like these. What is then found among the constructors for arguments of
any types compares with what is found among the methods as `ClassDef.Compared` says. -/
theorem constructors_alike (P : Policy) {es : List Event} (hes : (start P).Knowing es) {name method : String}
    {d : ClassDef} :
    let v := (start P).run es
    let r := v.registry
    r.named? name = some d → ¬r.Overtaken name → ({ policy := P } : Introspector).constructible r d = true →
    (∀ e ∈ r.classes, ∀ m ∈ e.methods, m.name ≠ method) →
    P.deniesMember d .method method = P.deniesMember d .method d.name →
      d.Compared r method (({ policy := P } : Introspector).shownConstructors d)
        (fun args => (v.memory.findConstructor r name args).1)
        fun args =>
          (({ policy := P } : Introspector).findMethod (r.naming d.id method) d.id (.ofArgs method args)).1 := by
  intro v r hd hfree hmake hunused hverdict
  have hv := (coherent_start P).run hes
  have hdid : r.class? d.id = some d := by
    obtain ⟨-, c, hc⟩ := Registry.named?_some hd
    rw [hv.proper.id hc]
    exact hc
  -- constructors are ranked and methods settled, so it comes to what the two choices have in common
  exact ClassDef.compared (hv.memory.findConstructor_answer hv.proper hd hfree hmake)
    (Introspector.findMethod_naming hv.proper hdid hmake hunused hverdict)

/-- A class that can be made from a number and from the same number boxed. -/
def box : ClassDecl :=
  ((ClassDecl.ofName "t.Box").construct [.int] fun _ => pure .null).construct [.ofClass .integer] fun _ => pure .null

/-- An instance is asked for with a number, twice: several constructors could make it. The methods in their place do
not tie. -/
theorem constructors_alike_box :
    let v := (start .unrestricted).run [.change (.register box), .ask (.constructor "t.Box" [.int 1])]
    let d := ClassDef.ofDecl ⟨19⟩ box
    let made (args : List Value) := (v.memory.findConstructor v.registry "t.Box" args).1
    let called (args : List Value) := (({ policy := .unrestricted } : Introspector).findMethod
      (v.registry.naming d.id "make") d.id (.ofArgs "make" args)).1
    (∃ e, made [.int 1] = .error e) ∧ called [.int 1] = .ok (d.constructors.head?.map (d.asMethod "make")) ∧
      ¬∀ args, d.Alike "make" (made args) (called args) := by
  intro v d made called
  have hes : (start .unrestricted).Knowing [.change (.register box), .ask (.constructor "t.Box" [.int 1])] := by
    have hbox : Registry.Change.KnownTo .initial (.register box) :=
      ⟨fun m hm => (by cases hm), by decide⟩
    refine ⟨hbox, ?_, trivial⟩
    intro a ha
    rw [List.mem_singleton.1 ha]
    intro c hc
    cases hc
    decide +kernel
  have hd : v.registry.named? "t.Box" = some d := rfl
  have hfree : ¬v.registry.Overtaken "t.Box" := by
    rintro ⟨c, -, e, -, he, -, harray, -⟩
    have hnone : ∀ e ∈ v.registry.classes, e.isArray = false := by decide +kernel
    rw [hnone e (Registry.mem_classes_iff.2 ⟨c, he⟩)] at harray
    cases harray
  have hunused : ∀ e ∈ v.registry.classes, ∀ m ∈ e.methods, m.name ≠ "make" := by decide +kernel
  have hcompared := constructors_alike .unrestricted hes hd hfree (by decide +kernel) hunused rfl
  refine ⟨hcompared.sameTied _ _ (.refl _) rfl [.int 1] rfl (.inl (by decide)), ?_, fun hagrees => ?_⟩
  · exact hcompared.same _ List.mem_cons_self [.int 1] rfl
  · -- the two constructors are not kept apart
    have hapart := apart_of_declared (hcompared.alike.1 hagrees)
    exact (List.pairwise_iff_forall_sublist.1 hapart (.refl _)).collapsed_ne rfl

/-- Constructors are not always found like methods: with two that differ in a box alone, the first is not taken. -/
theorem not_constructors_alike :
    ¬∀ (changes : List Registry.Change) (P : Policy) (name method : String) (d : ClassDef) (args : List Value),
      let r := Registry.initial.applyAll changes
      let k : Introspector := { policy := P }
      r.named? name = some d → k.constructible r d = true → (∀ e ∈ r.classes, ∀ m ∈ e.methods, m.name ≠ method) →
        P.deniesMember d .method method = P.deniesMember d .method d.name →
          d.Alike method (k.findConstructor r name args).1
            (k.findMethod (r.naming d.id method) d.id (.ofArgs method args)).1 := by
  intro h
  have hsame := (h [.register box] .unrestricted "t.Box" "make" (.ofDecl ⟨19⟩ box) [.int 1] rfl (by decide +kernel)
    (by decide +kernel) rfl).isOk_eq
  revert hsame
  decide +kernel

end View

end MemberAccess
