import MemberAccess.Proofs.Introspection.Population
import MemberAccess.Proofs.Overload.Choice
import MemberAccess.Proofs.Registry.Methods

/-!
# What denied methods leave behind

A denied method takes its signature, so it is not the same as one that has never been declared: it shadows
what an ancestor declares, and keeps a call from an overload that would take it after a conversion.

* `Registry.without`: the registry from which the methods that a policy denies have been deleted.
* `Introspector.findMethod_unused`: what an unused introspector finds, in terms of what is declared.
* `findMethod_without`: when a policy finds the same with and without the methods that it denies.
* `not_findMethod_without`: it does not always.
-/

namespace MemberAccess

variable (P : Policy) (r : Registry)

/-! ## Registries without denied methods -/

/-- The class without the methods that a policy denies. -/
def ClassDef.without (d : ClassDef) (P : Policy) : ClassDef :=
  { d with methods := d.methods.filter (P.allowsMethod d) }

/-- The registry without the methods that a policy denies, and otherwise the same. -/
def Registry.without (r : Registry) (P : Policy) : Registry :=
  { r with classes := r.classes.map (·.without P) }

/-- The methods of a class that a policy allows. Deleting the others is putting these in their place. -/
def Policy.allowedMethods (P : Policy) (d : ClassDef) : List Method := d.methods.filter (P.allowsMethod d)

theorem Policy.allowsClass_without (Q : Policy) (d : ClassDef) : Q.allowsClass (d.without P) = Q.allowsClass d :=
  Q.allowsClass_withMethods P.allowedMethods d

namespace Registry

theorem class?_without (c : ClassId) : (r.without P).class? c = (r.class? c).map (·.without P) :=
  r.class?_withMethods P.allowedMethods c

theorem describe_without (name : String) (params : List Ty) :
    (r.without P).describe name params = r.describe name params :=
  r.describe_withMethods P.allowedMethods name params

/-- **Deleting methods moves no class.** -/
theorem lineage_without (d : ClassDef) : (r.without P).lineage (d.without P) = (r.lineage d).map (·.without P) :=
  r.lineage_withMethods P.allowedMethods d

end Registry

/-! ## What is declared -/

/-- Of the declarations along some classes, those that are allowed are left. -/
theorem declarations_without (L : List ClassDef) :
    P.declarations (L.map (·.without P)) =
      ((P.declarations L).filter (·.allowed P)).map fun x => ⟨x.cls.without P, x.method⟩ := by
  induction L with
  | nil => rfl
  | cons d rest ih =>
    rw [List.map_cons, declarations_cons, declarations_cons P d, ih, List.filter_append, List.map_append]
    congr 1
    have hoffers : P.offers (d.without P) = (P.offers d).filter (P.allowsMethod d) := by
      unfold Policy.offers
      rw [Policy.allowsClass_without]
      change (if d.isPublic && _ then _ else _) = _
      split
      · exact List.filter_comm _ _ _
      · rfl
    simp only [Policy.declarations, List.flatMap_cons, List.flatMap_nil, List.append_nil, hoffers, List.filter_map,
      List.map_map]
    rfl

/-- The public methods that a class can expose, nearest first. A class that is unknown, retired or denied
exposes none. -/
def Policy.offered (P : Policy) (r : Registry) (c : ClassId) : List Declaration :=
  match r.class? c with
  | some d => if r.isAlive c && P.allowsClass d then P.declarations (r.lineage d) else []
  | none => []

theorem offered_without (c : ClassId) :
    P.offered (r.without P) c = ((P.offered r c).filter (·.allowed P)).map fun x => ⟨x.cls.without P, x.method⟩ := by
  unfold Policy.offered
  rw [Registry.class?_without]
  cases r.class? c with
  | none => rfl
  | some d =>
    simp only [Option.map_some, Policy.allowsClass_without, Registry.lineage_without, declarations_without]
    change (if r.isAlive c && _ then _ else _) = _
    split <;> rfl

/-- The methods that a call by name may go to: the nearest of each signature, unless it is denied. -/
def Policy.reach (P : Policy) (D : List Declaration) (name : String) : List Method :=
  (((nearest D).filter (·.allowed P)).map (·.method)).filter (·.name = name)

/-- What is found among declarations: the first one of the signature decides, and when there is none, the
overloads of the name are ranked. -/
def Policy.lookupAmong (P : Policy) (r : Registry) (D : List Declaration) (s : Signature) : Lookup Method :=
  match D.find? (·.signature = s) with
  | some x => x.outcome P
  | none => .ofChoice (fun m => r.describe m.name m.params) (choose r (·.params) s.params (P.reach D s.name))

variable {P r}

theorem offered_of_build_none {c : ClassId} (h : ClassMap.build r P c = none) : P.offered r c = [] := by
  unfold Policy.offered
  cases hd : r.class? c with
  | none => rfl
  | some d =>
    simp only
    split
    · rename_i hallow
      rw [Bool.and_eq_true] at hallow
      rw [ClassMap.build_of_allowed hd hallow.1 hallow.2, Population.ofLineage_eq] at h
      cases hD : P.declarations (r.lineage d) with
      | nil => rfl
      | cons x rest => simp [hD, nearest] at h
    · rfl

/-- A map that has just been made finds what there is among the declarations. -/
theorem lookup_of_build {c : ClassId} {m : ClassMap} (h : ClassMap.build r P c = some m) (s : Signature) :
    m.lookup r s = P.lookupAmong r (P.offered r c) s := by
  obtain ⟨d, hd, halive, hallow, rfl⟩ := ClassMap.build_eq_some h
  have hoffered : P.offered r c = P.declarations (r.lineage d) := by simp [Policy.offered, hd, halive, hallow]
  unfold ClassMap.lookup Policy.lookupAmong
  rw [hoffered]
  simp only [Population.get?_ofLineage]
  cases (P.declarations (r.lineage d)).find? (·.signature = s) with
  | some x => rfl
  | none =>
    simp only [Option.map_none, ClassMap.resolve, ClassMap.overloads, Population.ofLineage_eq]
    rfl

/-- **What an unused introspector finds.** -/
theorem Introspector.findMethod_unused (P : Policy) (r : Registry) (c : ClassId) (s : Signature) :
    (({ policy := P } : Introspector).findMethod r c s).1 =
      (P.lookupAmong r (P.offered r c) s).answer r (((r.class? c).map (·.qualifiedName)).getD "") s := by
  rw [findMethod_answer]
  -- nothing is kept yet, so the map is made, and its serial plays no part
  have hmade : (({ policy := P } : Introspector).mapOf r c).1 = (ClassMap.build r P c).map ({ · with serial := 0 }) :=
    rfl
  rw [hmade]
  cases hb : ClassMap.build r P c with
  | none =>
    rw [offered_of_build_none hb]
    rfl
  | some m =>
    rw [← lookup_of_build hb s]
    obtain ⟨d, hd, -, -, rfl⟩ := ClassMap.build_eq_some hb
    rw [hd]
    rfl

/-! ## With and without denied methods -/

/-- Where the first declaration of a signature is denied, it hides the first one that is allowed. None that is hidden
would be chosen for a call: it costs more than one that is not hidden, or the call cannot go to it. -/
def Policy.Unhidden (P : Policy) (r : Registry) (s : Signature) (D : List Declaration) : Prop :=
  ∀ x y, D.find? (·.signature = y.signature) = some x → x.allowed P = false →
    (D.filter (·.allowed P)).find? (·.signature = y.signature) = some y → y.method.name = s.name →
      ∀ k, callCost r y.method.params s.params = some k →
        ∃ m ∈ P.reach D s.name, ∃ n < k, callCost r m.params s.params = some n

theorem mem_of_mem_nearest {x : Declaration} {D : List Declaration} (h : x ∈ nearest D) : x ∈ D := by
  rw [nearest_eq_firsts] at h
  exact (firsts_sublist _ D).subset h

theorem mem_nearest_iff {D : List Declaration} {x : Declaration} :
    x ∈ nearest D ↔ D.find? (·.signature = x.signature) = some x := by
  rw [nearest_eq_firsts]
  exact mem_firsts_iff

/-- Of the declarations kept, the nearest ones are nearest of all where the first of their signature is kept. -/
theorem filter_nearest (p : Declaration → Bool) (D : List Declaration) :
    (nearest D).filter p =
      (nearest (D.filter p)).filter fun y => (D.find? (·.signature = y.signature)).all p := by
  induction D with
  | nil => rfl
  | cons x rest ih =>
    have hother : ∀ y : Declaration, y.signature ≠ x.signature →
        (x :: rest).find? (·.signature = y.signature) = rest.find? (·.signature = y.signature) := fun y hy =>
      List.find?_cons_of_neg (by simpa using Ne.symm hy)
    rw [nearest_cons]
    cases hp : p x with
    | true =>
      rw [List.filter_cons_of_pos hp, List.filter_cons_of_pos hp, nearest_cons,
        List.filter_cons_of_pos (by simp [hp]), List.filter_comm, ih, List.filter_filter, List.filter_filter]
      refine congrArg (x :: ·) (List.filter_congr fun y _ => ?_)
      by_cases hy : y.signature = x.signature
      · simp [hy]
      · rw [hother y hy, Bool.and_comm]
    | false =>
      rw [List.filter_cons_of_neg (by simp [hp]), List.filter_cons_of_neg (by simp [hp]), List.filter_comm, ih,
        List.filter_filter]
      refine List.filter_congr fun y _ => ?_
      by_cases hy : y.signature = x.signature
      · -- `x` comes first of this signature, and is left out
        simp [hy, hp]
      · simp [hother y hy, hy]

theorem nearest_map {f : Declaration → Declaration} (hf : ∀ x, (f x).signature = x.signature)
    (D : List Declaration) : nearest (D.map f) = (nearest D).map f := by
  rw [nearest_eq_firsts, firsts_map, nearest_eq_firsts]
  simp only [hf]

/-- The first element that has a property is still the first one when others are left out. -/
theorem find?_filter_of_find? {α : Type} {p q : α → Bool} {l : List α} {x : α} (h : l.find? p = some x)
    (hq : q x = true) : (l.filter q).find? p = some x := by
  induction l with
  | nil => cases h
  | cons y rest ih =>
    cases hp : p y with
    | true =>
      rw [List.find?_cons_of_pos hp] at h
      cases h
      rw [List.filter_cons_of_pos hq, List.find?_cons_of_pos hp]
    | false =>
      rw [List.find?_cons_of_neg (by simp [hp])] at h
      cases hqy : q y with
      | true => rw [List.filter_cons_of_pos hqy, List.find?_cons_of_neg (by simp [hp]), ih h]
      | false => rw [List.filter_cons_of_neg (by simp [hqy]), ih h]

/-- **What is found among declarations is what is found among those that are allowed**, unless the first one
of the signature is denied, or none has it and a denied one hides an overload that would be chosen. -/
theorem lookupAmong_filter {D : List Declaration} {s : Signature}
    (hfirst : ∀ x, D.find? (·.signature = s) = some x → x.allowed P = true)
    (hhidden : D.find? (·.signature = s) = none → P.Unhidden r s D) :
    P.lookupAmong r (D.filter (·.allowed P)) s = P.lookupAmong r D s := by
  unfold Policy.lookupAmong
  cases hfind : D.find? (·.signature = s) with
  | some x => rw [find?_filter_of_find? hfind (hfirst x hfind)]
  | none =>
    have hnone : (D.filter (·.allowed P)).find? (·.signature = s) = none := by
      rw [List.find?_eq_none] at hfind ⊢
      exact fun x hx => hfind x (List.mem_of_mem_filter hx)
    rw [hnone]
    simp only
    -- what a call may go to among the allowed declarations, and what of it is not hidden
    let named := (nearest (D.filter (·.allowed P))).filter (·.method.name = s.name)
    let shown (y : Declaration) : Bool := (D.find? (·.signature = y.signature)).all (·.allowed P)
    have hnamed : P.reach (D.filter (·.allowed P)) s.name = named.map (·.method) := by
      have hallowed : (nearest (D.filter (·.allowed P))).filter (·.allowed P) = nearest (D.filter (·.allowed P)) :=
        List.filter_eq_self.2 fun y hy => (List.mem_filter.1 (mem_of_mem_nearest hy)).2
      unfold Policy.reach
      rw [hallowed, List.filter_map]
      rfl
    have hshown : P.reach D s.name = (named.filter shown).map (·.method) := by
      unfold Policy.reach
      rw [filter_nearest, List.filter_map, List.filter_comm]
      rfl
    have hsame : choose r (·.method.params) s.params (named.filter shown) =
        choose r (·.method.params) s.params named := by
      refine choose_filter_of_less fun y hy hnot k hk => ?_
      obtain ⟨hnearest, hname⟩ := List.mem_filter.1 hy
      obtain ⟨x, hx, hdenied⟩ := (Option.all_eq_false _ _).1 hnot
      obtain ⟨m, hm, hless⟩ :=
        hhidden hfind x y hx (by simpa using hdenied) (mem_nearest_iff.1 hnearest) (of_decide_eq_true hname) k hk
      rw [hshown] at hm
      obtain ⟨v, hv, rfl⟩ := List.mem_map.1 hm
      exact ⟨v, List.mem_of_mem_filter hv, hless⟩
    rw [hnamed, hshown, choose_map, choose_map, hsame]

/-- What is found does not depend on the methods of the classes that declarations come with. -/
theorem lookupAmong_withMethods (f : ClassDef → List Method) (D : List Declaration) (s : Signature) :
    P.lookupAmong (r.withMethods f) (D.map fun x => ⟨x.cls.withMethods f, x.method⟩) s = P.lookupAmong r D s := by
  have hallowed : ∀ x : Declaration, Declaration.allowed P ⟨x.cls.withMethods f, x.method⟩ = x.allowed P := fun x =>
    P.allowsMethod_withMethods f x.cls x.method
  have hsignature : ∀ x : Declaration, Declaration.signature ⟨x.cls.withMethods f, x.method⟩ = x.signature :=
    fun _ => rfl
  have hreach : P.reach (D.map fun x => ⟨x.cls.withMethods f, x.method⟩) s.name = P.reach D s.name := by
    unfold Policy.reach
    rw [nearest_map hsignature]
    simp only [List.filter_map, List.map_map, Function.comp_def, hallowed]
  have hchoose : ∀ candidates : List Method, choose (r.withMethods f) (·.params) s.params candidates =
      choose r (·.params) s.params candidates := fun candidates =>
    choose_congr fun m _ => callCost_withMethods f r m.params s.params
  unfold Policy.lookupAmong
  rw [List.find?_map, hreach, hchoose]
  simp only [Function.comp_def, hsignature, Registry.describe_withMethods]
  cases D.find? (·.signature = s) with
  | none => rfl
  | some x => simp only [Option.map_some, Declaration.outcome, hallowed]

theorem lookupAmong_without (D : List Declaration) (s : Signature) :
    P.lookupAmong (r.without P) (D.map fun x => ⟨x.cls.without P, x.method⟩) s = P.lookupAmong r D s :=
  lookupAmong_withMethods P.allowedMethods D s

/-- **When a policy finds the same with and without the methods that it denies.** If what is declared first
with the signature of a call, along the classes whose members count, is denied, nothing is found. If it is
allowed, or if nothing is declared with that signature and no denied method hides an overload that would be
chosen, the answer is the one over the registry from which all denied methods have been deleted. -/
theorem findMethod_without (P : Policy) (r : Registry) (c : ClassId) (s : Signature) :
    let find (r : Registry) := (({ policy := P } : Introspector).findMethod r c s).1
    let first := (P.offered r c).find? (·.signature = s)
    (∀ x, first = some x → x.allowed P = false → find r = .ok none) ∧
      ((∀ x, first = some x → x.allowed P = true) → (first = none → P.Unhidden r s (P.offered r c)) →
        find (r.without P) = find r) := by
  refine ⟨?_, ?_⟩
  · intro x hx hdenied
    simp only [Introspector.findMethod_unused]
    unfold Policy.lookupAmong
    rw [hx]
    simp [Declaration.outcome, hdenied, Lookup.answer]
  · intro hfirst hhidden
    simp only [Introspector.findMethod_unused]
    rw [offered_without, lookupAmong_without, lookupAmong_filter hfirst hhidden, Registry.class?_without]
    have hname : ((r.class? c).map (·.without P)).map (·.qualifiedName) = (r.class? c).map (·.qualifiedName) := by
      cases r.class? c <;> rfl
    rw [hname]
    cases P.lookupAmong r (P.offered r c) s with
    | found m => rfl
    | miss => rfl
    | ambiguous candidates => simp [Lookup.answer, Signature.describe, Registry.describe_without]

/-- Three classes in a row: the second declares two methods of the first again, and the third adds an overload of one
of these that takes numbers alone. -/
def overriding : List Registry.Change :=
  [.register (ClassDecl.ofName "t.Base"
      |>.method "f" [] .int .answersNull
      |>.method "g" [] .int .answersNull
      |>.method "h" [.object] .int .answersNull),
    .register ((ClassDecl.ofName "t.Derived").extending ⟨19⟩
      |>.method "f" [] .int .answersNull
      |>.method "h" [.object] .int .answersNull),
    .register ((ClassDecl.ofName "t.Leaf").extending ⟨20⟩
      |>.method "h" [.ofClass .number] .int .answersNull)]

/-- The methods are denied where they are declared again. -/
def denying : Policy := .narrowed .unrestricted [⟨"t", [("Derived", { methods := ["f", "h"] })]⟩]

/-- The method that is declared again is not found, another one is found in the class above as if the denied one had
never been declared. So is the overload for numbers, which is nearer than the one that is hidden. -/
theorem findMethod_without_overriding :
    let r := Registry.initial.applyAll overriding
    let find (r : Registry) (c : ClassId) (s : Signature) :=
      (({ policy := denying } : Introspector).findMethod r c s).1
    find r ⟨20⟩ (.ofArgs "f" []) = .ok none ∧
      find (r.without denying) ⟨20⟩ (.ofArgs "g" []) = find r ⟨20⟩ (.ofArgs "g" []) ∧
      find (r.without denying) ⟨21⟩ (.ofArgs "h" [.int 1]) = find r ⟨21⟩ (.ofArgs "h" [.int 1]) := by
  intro r find
  have hf : ((denying.offered r ⟨20⟩).find? (·.signature = .ofArgs "f" [])).any (!·.allowed denying) = true := by
    decide +kernel
  have hg : ((denying.offered r ⟨20⟩).find? (·.signature = .ofArgs "g" [])).any (·.allowed denying) = true := by
    decide +kernel
  have hh : ((denying.offered r ⟨21⟩).find? (·.signature = .ofArgs "h" [.int 1])).isSome = false := by
    decide +kernel
  obtain ⟨x, hx, hdenied⟩ := (Option.any_eq_true _ _).1 hf
  obtain ⟨y, hy, hallow⟩ := (Option.any_eq_true _ _).1 hg
  rw [Option.isSome_eq_false_iff, Option.isNone_iff_eq_none] at hh
  refine ⟨(findMethod_without denying r ⟨20⟩ (.ofArgs "f" [])).1 x hx (by simpa using hdenied),
    (findMethod_without denying r ⟨20⟩ (.ofArgs "g" [])).2 ?_ ?_,
    (findMethod_without denying r ⟨21⟩ (.ofArgs "h" [.int 1])).2 ?_ fun _ => ?_⟩
  · intro z hz
    rw [hy] at hz
    cases hz
    exact hallow
  · intro hnone
    rw [hy] at hnone
    cases hnone
  · intro z hz
    rw [hh] at hz
    cases hz
  · -- a number costs less as a number than as an object
    have hless : ∀ y ∈ (denying.offered r ⟨21⟩).filter (·.allowed denying), y.method.name = "h" →
        ((denying.offered r ⟨21⟩).find? (·.signature = y.signature)).any (!·.allowed denying) = true →
        (callCost r y.method.params [.ofClass .integer]).all (fun k => (denying.reach (denying.offered r ⟨21⟩) "h").any
          fun m => (callCost r m.params [.ofClass .integer]).any (· < k)) = true := by
      decide +kernel
    intro x y hx hdenied hy hname k hk
    have hnearer := hless y (List.mem_of_find?_eq_some hy) hname (by simp [hx, hdenied])
    rw [show callCost r y.method.params [.ofClass .integer] = some k from hk] at hnearer
    obtain ⟨m, hm, hcost⟩ := List.any_eq_true.1 hnearer
    obtain ⟨n, hn, hlt⟩ := (Option.any_eq_true _ _).1 hcost
    exact ⟨m, hm, n, of_decide_eq_true hlt, hn⟩

/-- A denied method is not as good as absent: declared again and denied, it hides the one above. -/
theorem not_findMethod_without :
    ¬ ∀ (changes : List Registry.Change) (P : Policy) (c : ClassId) (s : Signature),
      let r := Registry.initial.applyAll changes
      (({ policy := P } : Introspector).findMethod (r.without P) c s).1 =
        (({ policy := P } : Introspector).findMethod r c s).1 := by
  intro h
  have hids := congrArg (fun answer => answer.toOption.map (·.map (·.id)))
    (h overriding denying ⟨20⟩ (.ofArgs "f" []))
  revert hids
  decide +kernel

end MemberAccess
