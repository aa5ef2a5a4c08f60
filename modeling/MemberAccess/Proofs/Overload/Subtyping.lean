import MemberAccess.Proofs.Overload.Choice
import MemberAccess.Proofs.Overload.Cost

/-!
# Overloads for a class and for a supertype of it

An object that can be passed to a class can be passed to the supertypes of that class. Which overload is chosen does
not go by that but by distance: an overload is as good as its class is near to the class of the object, and a
supertype may be nearer, since interfaces can be declared anew and chains are of any length. It is farther when the
paths up to it all lead through the class.

* `Choice.winners`: the candidates that are chosen or tied.
* `classCost_of_distance`, `boxes_of_classCost`: what it costs to pass an object to a supertype, and to anything else.
* `Registry.Prefers`: overloads for one class shut out those for another; `Registry.Rivals`: they do not even where
  there are no others.
* `prefers_iff`: they do so exactly when the other one is farther (`Registry.NoFarther`).
* `not_noFarther_of_allThrough`: a supertype is farther when there is no way around a class (`Registry.AllThrough`).
* `Store.prefers_subtype`: both, in every store.
-/

namespace MemberAccess

/-- The candidate that is chosen, or those that are tied. -/
def Choice.winners {α : Type} : Choice α → List α
  | .none => []
  | .one a => [a]
  | .tie tied => tied

@[simp] theorem Choice.winners_ofTied {α : Type} (tied : List α) : (Choice.ofTied tied).winners = tied := by
  match tied with
  | [] => rfl
  | [a] => rfl
  | a :: b :: rest => rfl

/-- **The winners are the candidates that cost the least.** -/
theorem mem_winners_iff {α : Type} {r : Registry} {params : α → List Ty} {actuals : List Ty} {candidates : List α}
    {y : α} : y ∈ (choose r params actuals candidates).winners ↔ y ∈ candidates ∧
      ∃ n, callCost r (params y) actuals = some n ∧
        ∀ x ∈ candidates, ∀ m, callCost r (params x) actuals = some m → n ≤ m := by
  rcases choose_cases r params actuals candidates with ⟨hnone, hchoice⟩ | ⟨n, hlow, hne, hchoice⟩
  · rw [hchoice]
    constructor
    · intro h
      cases h
    · rintro ⟨hy, n, hn, -⟩
      rw [hnone y hy] at hn
      cases hn
  · rw [hchoice, Choice.winners_ofTied, List.mem_filter, decide_eq_true_iff]
    constructor
    · rintro ⟨hy, hcost⟩
      exact ⟨hy, n, hcost, hlow⟩
    · rintro ⟨hy, m, hm, hleast⟩
      -- some candidate costs no more than the least cost, so this one does not either
      obtain ⟨x, hx⟩ := List.exists_mem_of_ne_nil _ hne
      obtain ⟨hmem, hcost⟩ := List.mem_filter.1 hx
      have hle := hleast x hmem n (of_decide_eq_true hcost)
      have hge := hlow y hy m hm
      exact ⟨hy, by rw [hm, Nat.le_antisymm hle hge]⟩

namespace Registry

open Relation (ReflTransGen)

variable {r : Registry} {a b c : ClassId}

/-! ## The cost of an object -/

/-- What it costs to pass an object of a class to a parameter of another. -/
def classCost (r : Registry) (c a : ClassId) : Option Nat := conversionCost r (.ofClass a) (.ofClass c)

/-- A class that boxes a primitive. -/
def Boxes (c : ClassId) : Prop := ∃ p : Primitive, c = p.boxed

theorem boxes_of_ofBoxed? {p : Primitive} (h : Primitive.ofBoxed? c = some p) : c = p.boxed := by
  unfold Primitive.ofBoxed? at h
  have hboxed : p.boxed = c := by simpa using List.find?_some h
  exact hboxed.symm

/-- A boxing class is one of the core classes. -/
theorem Boxes.core (h : Boxes c) : c.index < initial.size := by
  obtain ⟨p, rfl⟩ := h
  have hall : ∀ p ∈ Primitive.all, p.boxed.index < initial.size := by decide
  exact hall p p.mem_all

theorem Boxes.isArray (hinit : initial.GrowsTo r) (h : Boxes c) : r.isArray c = false := by
  obtain ⟨d, hd⟩ := exists_class h.core
  obtain ⟨decl, rfl⟩ := class?_initial hd
  rw [Registry.isArray, hinit.class?_some hd]
  rfl

/-- **No path leads from one boxing class to another.** -/
theorem distance_boxes (hinit : initial.GrowsTo r) (hc : Boxes c) (ha : Boxes a) (hne : c ≠ a) :
    r.distance c a = none := by
  rw [distance_core hinit (Nat.lt_of_lt_of_le hc.core hinit.size_le) ha.core, if_neg hne,
    steps_growsTo proper_initial hinit hc.core]
  obtain ⟨p, rfl⟩ := hc
  obtain ⟨q, rfl⟩ := ha
  have happart : ∀ p ∈ Primitive.all, ∀ q ∈ Primitive.all, p.boxed ≠ q.boxed →
      initial.steps p.boxed q.boxed = none := by decide +kernel
  exact happart p p.mem_all q q.mem_all hne

theorem reaches_of_isAssignable (hp : r.Proper) (hplain : ¬(r.isArray a = true ∧ r.isArray b = true))
    (h : r.isAssignable a b = true) : r.Reaches a b := by
  rcases isAssignable_cases hp h with h | ⟨d, t, hd, ht, hdarray, htarray⟩
  · exact h
  · exact absurd ⟨by simp [isArray, hd, hdarray], by simp [isArray, ht, htarray]⟩ hplain

/-- **No class stands between two boxing classes.** -/
theorem not_isAssignable_boxes (hp : r.Proper) (hinit : initial.GrowsTo r) (hc : Boxes c) (hb : Boxes b)
    (hne : c ≠ b) (hca : r.isAssignable c a = true) : r.isAssignable a b = false := by
  have hup : r.Reaches c a := reaches_of_isAssignable hp (by simp [hc.isArray hinit]) hca
  have hknown : c.index < r.size := Nat.lt_of_lt_of_le hc.core hinit.size_le
  cases hab : r.isAssignable a b with
  | false => rfl
  | true =>
    have hfurther : r.Reaches a b := reaches_of_isAssignable hp (by simp [hb.isArray hinit]) hab
    have hsteps := (steps_isSome_iff hp hknown).2 (hup.trans hfurther)
    have hnone := distance_boxes hinit hc hb hne
    rw [distance_core hinit hknown hb.core, if_neg hne] at hnone
    rw [hnone] at hsteps
    cases hsteps

/-! ## Distance zero -/

/-- No two classes have the same component. -/
def ArraysApart (r : Registry) : Prop := ∀ c c' d d' t, r.class? c = some d → r.class? c' = some d' →
  d.component = some t → d'.component = some t → c = c'

theorem arraysApart_initial : initial.ArraysApart := by
  intro c c' d d' t hd _ hcomponent _
  obtain ⟨decl, rfl⟩ := class?_initial hd
  cases hcomponent

theorem arraysApart_push {make : ClassId → ClassDef} (h : r.ArraysApart)
    (hmake : ∀ t, (make r.next).component = some t → ∀ d ∈ r.classes, d.component ≠ some t) :
    (r.push make).ArraysApart := by
  intro c c' d d' t hd hd' ht ht'
  rcases class?_push hd with hold | ⟨rfl, rfl⟩ <;> rcases class?_push hd' with hold' | ⟨rfl, rfl⟩
  · exact h c c' d d' t hold hold' ht ht'
  · exact absurd ht (hmake t ht' d (mem_classes_iff.2 ⟨c, hold⟩))
  · exact absurd ht' (hmake t ht d' (mem_classes_iff.2 ⟨c', hold'⟩))
  · rfl

theorem arraysApart_apply (h : r.ArraysApart) (change : Change) : (r.apply change).ArraysApart := by
  rcases apply_cases r change with e | ⟨d, -, -, -, -, e⟩ | ⟨t, -, hnone, e⟩ | ⟨c, -, -, -, e⟩ <;> rw [e]
  · exact h
  · exact arraysApart_push h fun t ht => by cases ht
  · -- a component gets a class when it has none
    refine arraysApart_push h fun t' ht' d hd => ?_
    cases ht'
    have hfind := List.find?_eq_none.1 (Option.map_eq_none_iff.1 hnone) d hd
    simpa using hfind
  · exact h

theorem arraysApart_applyAll (h : r.ArraysApart) (changes : List Change) : (r.applyAll changes).ArraysApart := by
  induction changes generalizing r with
  | nil => exact h
  | cons change rest ih => exact ih (arraysApart_apply h change)

/-- Through any number of layers of arrays, only a class itself is at distance zero. -/
theorem eq_of_distanceWithin (hp : r.Proper) (hapart : r.ArraysApart) (n : Nat) :
    ∀ {c a}, r.distanceWithin n c a = some 0 → c = a := by
  induction n using Nat.strongRecOn with
  | ind n ih =>
    intro c a h
    unfold distanceWithin at h
    split at h
    · assumption
    · split at h
      · rename_i hd he
        split at h
        · rename_i hcomponent hcomponent'
          split at h
          · cases h
          · -- the components are at distance zero, so they are one
            rename_i m
            rw [ih m (Nat.lt_succ_self m) h] at hcomponent
            exact hapart _ _ _ _ _ hd he hcomponent hcomponent'
        · cases h
        · cases ((steps_eq_some_iff hp (index_lt hd)).1 h).1
          rfl
      · cases h

/-! ## The cost of an object by its distance -/

/-- Two boxing classes are a matter of widening, any two others one of distance. -/
theorem classCost_eq (hne : c ≠ a) : r.classCost c a = match Primitive.ofBoxed? a, Primitive.ofBoxed? c with
    | some f, some p => p.widening f
    | _, _ => (r.distance c a).map (referenceCost + ·) := by
  have hnull : Ty.ofClass c ≠ .null := nofun
  have hother : (Ty.ofClass a).normalized ≠ (Ty.ofClass c).normalized := fun h => hne (Ty.ofClass.inj h).symm
  unfold classCost conversionCost
  exact (if_neg hnull).trans ((if_neg hother).trans rfl)

/-- **A supertype costs nothing if it is the class itself**, and otherwise what a reference costs and its distance. -/
theorem classCost_of_distance (hp : r.Proper) (hinit : initial.GrowsTo r) (hapart : r.ArraysApart) {n : Nat}
    (h : r.distance c a = some n) : r.classCost c a = some (if n = 0 then 0 else referenceCost + n) := by
  by_cases hne : c = a
  · subst hne
    rw [distance_self] at h
    cases h
    exact conversionCost_self r _ (by simp)
  · have hn : n ≠ 0 := by
      rintro rfl
      exact hne (eq_of_distanceWithin hp hapart _ h)
    rw [classCost_eq hne, if_neg hn]
    cases hf : Primitive.ofBoxed? a with
    | none => simp [h]
    | some f =>
      cases hb : Primitive.ofBoxed? c with
      | none => simp [h]
      | some p =>
        rw [distance_boxes hinit ⟨p, boxes_of_ofBoxed? hb⟩ ⟨f, boxes_of_ofBoxed? hf⟩ hne] at h
        cases h

/-- What costs something without being a supertype is reached by widening, which costs less than any reference. -/
theorem boxes_of_classCost {k : Nat} (h : r.distance c a = none) (hk : r.classCost c a = some k) :
    c ≠ a ∧ Boxes c ∧ Boxes a ∧ k < referenceCost := by
  have hne : c ≠ a := by
    rintro rfl
    rw [distance_self] at h
    cases h
  rw [classCost_eq hne, h] at hk
  cases hf : Primitive.ofBoxed? a with
  | none => simp [hf] at hk
  | some f =>
    cases hb : Primitive.ofBoxed? c with
    | none => simp [hf, hb] at hk
    | some p =>
      rw [hf, hb] at hk
      have hless : ∀ p ∈ Primitive.all, ∀ f ∈ Primitive.all, ∀ k ∈ p.widening f, k < referenceCost := by decide
      exact ⟨hne, ⟨p, boxes_of_ofBoxed? hb⟩, ⟨f, boxes_of_ofBoxed? hf⟩, hless p p.mem_all f f.mem_all k hk⟩

/-! ## Overloads for a class and for a supertype -/

/-- An object of a class can be passed to a parameter of another. -/
def Takes (r : Registry) (a c : ClassId) : Prop := (r.classCost c a).isSome = true

/-- Among overloads with one parameter, called with an object of class `c`, none for `b` is chosen or tied where there
is one for `a`. -/
def Prefers (r : Registry) (c a b : ClassId) : Prop :=
  ∀ (α : Type) (formal : α → ClassId) (candidates : List α) (x y : α), x ∈ candidates → y ∈ candidates →
    formal x = a → formal y = b →
    y ∉ (choose r (fun z => [.ofClass (formal z)]) [.ofClass c] candidates).winners

/-- Where all overloads with one parameter are for `a` or `b`, called with an object of class `c`, those for `b` are
chosen or tied. -/
def Rivals (r : Registry) (c a b : ClassId) : Prop :=
  ∀ (α : Type) (formal : α → ClassId) (candidates : List α) (y : α), y ∈ candidates → formal y = b →
    (∀ x ∈ candidates, formal x = a ∨ formal x = b) →
    y ∈ (choose r (fun z => [.ofClass (formal z)]) [.ofClass c] candidates).winners

/-- As supertypes of `c`, `b` is no farther than `a`. -/
def NoFarther (r : Registry) (c b a : ClassId) : Prop :=
  ∃ m n, r.distance c b = some m ∧ r.distance c a = some n ∧ m ≤ n

/-- No path leads from `c` to `b` without going on from `a`. -/
def AllThrough (r : Registry) (c a b : ClassId) : Prop :=
  ¬ReflTransGen (fun x y => r.Edge x y ∧ x ≠ a) c b

theorem callCost_class (r : Registry) (c a : ClassId) :
    callCost r [.ofClass a] [.ofClass c] = r.classCost c a := by
  unfold classCost callCost conversionCosts
  cases conversionCost r (.ofClass a) (.ofClass c) <;> rfl

/-- The overloads for a class are chosen or tied beside those for another if they cost no more. -/
theorem rivals_of_le {k m : Nat} (ha : r.classCost c a = some k) (hb : r.classCost c b = some m) (hle : m ≤ k) :
    r.Rivals c a b := by
  rintro α formal candidates y hy rfl hboth
  refine mem_winners_iff.2 ⟨hy, m, ?_, ?_⟩
  · rw [callCost_class, hb]
  · intro x hx n hn
    rw [callCost_class] at hn
    rcases hboth x hx with hfor | hfor
    · rw [hfor, ha] at hn
      cases hn
      exact hle
    · rw [hfor, hb] at hn
      cases hn
      exact Nat.le_refl m

/-- The overloads for a class shut out those for another exactly when they cost less. -/
theorem prefers_iff_lt {k m : Nat} (ha : r.classCost c a = some k) (hb : r.classCost c b = some m) :
    r.Prefers c a b ↔ k < m := by
  constructor
  · intro h
    by_contra hle
    -- of an overload for each, the one for `b` would be chosen or tied
    exact h ClassId (fun z => z) [a, b] a b (by simp) (by simp) rfl rfl
      (rivals_of_le ha hb (Nat.le_of_not_lt hle) ClassId (fun z => z) [a, b] b (by simp) rfl (by simp))
  · rintro hlt α formal candidates x y hx - rfl rfl hwins
    obtain ⟨-, n, hn, hleast⟩ := mem_winners_iff.1 hwins
    have hle := hleast x hx k (by rw [callCost_class, ha])
    rw [callCost_class, hb] at hn
    cases hn
    omega

/-- **A supertype costs no more exactly when it is no farther.** -/
theorem cost_le_iff (hp : r.Proper) (hinit : initial.GrowsTo r) (hapart : r.ArraysApart) (hne : a ≠ b)
    (hsub : r.isAssignable a b = true) {k m : Nat} (ha : r.classCost c a = some k) (hb : r.classCost c b = some m) :
    m ≤ k ↔ r.NoFarther c b a := by
  -- a boxing class is below no other one
  have hsupertype : Boxes a → ¬Boxes b := by
    intro hboxa hboxb
    rw [isAssignable, distance_boxes hinit hboxa hboxb hne] at hsub
    cases hsub
  unfold NoFarther
  cases hda : r.distance c a with
  | none =>
    -- `a` is reached by widening, so `b` is not
    obtain ⟨-, hboxc, hboxa, hless⟩ := boxes_of_classCost hda ha
    have hmore : k < m := by
      cases hdb : r.distance c b with
      | none => exact absurd (boxes_of_classCost hdb hb).2.2.1 (hsupertype hboxa)
      | some j =>
        have hj : j ≠ 0 := by
          rintro rfl
          exact hsupertype hboxa (eq_of_distanceWithin hp hapart _ hdb ▸ hboxc)
        rw [classCost_of_distance hp hinit hapart hdb, if_neg hj] at hb
        cases hb
        omega
    constructor
    · intro hle
      omega
    · rintro ⟨i, j, -, hj, -⟩
      cases hj
  | some n =>
    cases hdb : r.distance c b with
    | none =>
      obtain ⟨hcb, hboxc, hboxb, -⟩ := boxes_of_classCost hdb hb
      rw [not_isAssignable_boxes hp hinit hboxc hboxb hcb (by simp [isAssignable, hda])] at hsub
      cases hsub
    | some j =>
      rw [classCost_of_distance hp hinit hapart hda] at ha
      rw [classCost_of_distance hp hinit hapart hdb] at hb
      cases ha
      cases hb
      simp only [Option.some.injEq, exists_and_left, exists_eq_left']
      split <;> split <;> omega

/-- **Overloads for a class shut out those for a supertype exactly when the supertype is farther.** -/
theorem prefers_iff (hp : r.Proper) (hinit : initial.GrowsTo r) (hapart : r.ArraysApart) (hne : a ≠ b)
    (hsub : r.isAssignable a b = true) (ha : r.Takes a c) (hb : r.Takes b c) :
    r.Prefers c a b ↔ ¬r.NoFarther c b a := by
  obtain ⟨k, hk⟩ := Option.isSome_iff_exists.1 ha
  obtain ⟨m, hm⟩ := Option.isSome_iff_exists.1 hb
  rw [prefers_iff_lt hk hm, ← cost_le_iff hp hinit hapart hne hsub hk hm, Nat.not_le]

/-! ## No way around a class -/

/-- A path on which nothing goes on from a class leads around it; any other comes to it on the way. -/
theorem Path.around_or_through {n : Nat} (h : r.Path n c b) :
    ReflTransGen (fun x y => r.Edge x y ∧ x ≠ a) c b ∨ ∃ k < n, r.Path k c a := by
  induction h with
  | here c => exact .inl .refl
  | @up n c x b edge rest ih =>
    by_cases hc : c = a
    · exact .inr ⟨0, Nat.succ_pos n, hc ▸ .here c⟩
    · rcases ih with haround | ⟨k, hk, hpath⟩
      · exact .inl (.head ⟨edge, hc⟩ haround)
      · exact .inr ⟨k + 1, Nat.succ_lt_succ hk, .up edge hpath⟩

/-- **When all paths lead through a class, what is above it is farther.** -/
theorem not_noFarther_of_allThrough (hp : r.Proper) (hplain : r.isArray c = false) (h : r.AllThrough c a b) :
    ¬r.NoFarther c b a := by
  rintro ⟨m, n, hm, hn, hle⟩
  have harray : ∀ s, ¬(r.isArray c = true ∧ r.isArray s = true) := by
    rintro s ⟨hc, -⟩
    rw [hplain] at hc
    cases hc
  have hcb : c ≠ b := by
    rintro rfl
    exact h .refl
  obtain ⟨-, hpath, -⟩ := (hp.shortest.some_iff hcb (harray b) m).1 hm
  rcases hpath.around_or_through (a := a) with haround | ⟨k, hk, hpath'⟩
  · exact h haround
  · by_cases hca : c = a
    · rw [hca, distance_self] at hn
      cases hn
      omega
    · have hshort := ((hp.shortest.some_iff hca (harray a) n).1 hn).2.2 hpath'
      omega

end Registry

namespace Store

theorem arraysApart_serveAll (heap : Heap) (qs : List Request) :
    ((start heap).serveAll qs).registry.ArraysApart := by
  obtain ⟨changes, h⟩ := (start heap).serveAll_registry qs
  rw [h]
  exact Registry.arraysApart_applyAll Registry.arraysApart_initial changes

/-- **Overloads for a class and for a supertype, in every store.** Take an object that can be passed to two classes, of
which one is a supertype of the other. However many overloads there are, those for the class shut out those for the
supertype exactly when the supertype is farther from the class of the object. When it is no farther, and all overloads
are for these two, those for the supertype are chosen or tied. It is farther when all paths up to it lead through the
class. -/
theorem prefers_subtype (heap : Heap) (qs : List Request) :
    let r := ((start heap).serveAll qs).registry
    ∀ {a b c : ClassId}, a ≠ b → r.isAssignable a b = true → r.Takes a c → r.Takes b c →
      (r.Prefers c a b ↔ ¬r.NoFarther c b a) ∧ (r.NoFarther c b a → r.Rivals c a b) ∧
        (r.isArray c = false → r.AllThrough c a b → r.Prefers c a b) := by
  intro r a b c hne hsub ha hb
  obtain ⟨hp, hinit, -⟩ := served heap qs
  have hapart := arraysApart_serveAll heap qs
  have hiff := Registry.prefers_iff hp hinit hapart hne hsub ha hb
  refine ⟨hiff, fun hnear => ?_, fun hplain hthrough =>
    hiff.2 (Registry.not_noFarther_of_allThrough hp hplain hthrough)⟩
  obtain ⟨k, hk⟩ := Option.isSome_iff_exists.1 ha
  obtain ⟨m, hm⟩ := Option.isSome_iff_exists.1 hb
  exact Registry.rivals_of_le hk hm ((Registry.cost_le_iff hp hinit hapart hne hsub hk hm).2 hnear)

/-- Lists stand between array lists and collections, and there is no way around them. -/
theorem prefers_subtype_arrayList :
    let r := ((start .empty).serveAll []).registry
    ClassId.list ≠ .collection ∧ r.isAssignable .list .collection = true ∧ r.Takes .list .arrayList ∧
      r.Takes .collection .arrayList ∧ r.isArray .arrayList = false ∧ r.AllThrough .arrayList .list .collection ∧
      r.Prefers .arrayList .list .collection ∧ ¬r.NoFarther .arrayList .collection .list := by
  intro r
  have hassign : r.isAssignable .list .collection = true := by decide
  have hlist : r.Takes .list .arrayList := by unfold Registry.Takes; decide
  have hcollection : r.Takes .collection .arrayList := by unfold Registry.Takes; decide
  have hplain : r.isArray .arrayList = false := by decide
  have hthrough : r.AllThrough .arrayList .list .collection := by
    intro haround
    have hclosed : ∀ x ∈ [ClassId.arrayList, .list, .object], x ≠ .list →
        ∀ s ∈ r.supertypes x, s ∈ [ClassId.arrayList, .list, .object] := by decide
    have hmem : ∀ x, Relation.ReflTransGen (fun x y => r.Edge x y ∧ x ≠ .list) .arrayList x →
        x ∈ [ClassId.arrayList, .list, .object] := by
      intro x hpath
      induction hpath with
      | refl => exact List.mem_cons_self
      | tail _ step ih => exact hclosed _ ih step.2 _ step.1
    exact absurd (hmem _ haround) (by decide)
  obtain ⟨hiff, -, hprefers⟩ := prefers_subtype .empty [] (by decide) hassign hlist hcollection
  have hshut := hprefers hplain hthrough
  exact ⟨by decide, hassign, hlist, hcollection, hplain, hthrough, hshut, hiff.1 hshut⟩

/-- A class of lists that declares itself that it can be iterated. -/
def bagged : List Request := [.register (((ClassDecl.ofName "t.Bag").extending .arrayList).implementing .iterable)]

/-- A bag is a collection, and what is iterable is a supertype of that; but to a bag it is nearer, so the overload for
what is iterable is chosen. -/
theorem not_prefers_subtype :
    ¬∀ (heap : Heap) (qs : List Request) (a b c : ClassId), let r := ((start heap).serveAll qs).registry
      c.index < r.size → a ≠ b → r.isAssignable a b = true → r.Takes a c → r.Takes b c → r.Prefers c a b := by
  intro h
  let r := ((start .empty).serveAll bagged).registry
  obtain ⟨hknown, hassign, hcollection, hiterable, hchosen⟩ :
      19 < r.size ∧ r.isAssignable .collection .iterable = true ∧
        (r.classCost ⟨19⟩ .collection).isSome = true ∧ (r.classCost ⟨19⟩ .iterable).isSome = true ∧
        ClassId.iterable ∈
          (choose r (fun z => [.ofClass z]) [.ofClass ⟨19⟩] [ClassId.collection, .iterable]).winners := by
    decide +kernel
  have hshut := h .empty bagged .collection .iterable ⟨19⟩ hknown (by decide) hassign hcollection hiterable
  exact hshut ClassId (fun z => z) [.collection, .iterable] .collection .iterable (by decide) (by decide) rfl rfl
    hchosen

end Store

end MemberAccess
