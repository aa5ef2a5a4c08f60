import Mathlib.Data.Finset.Card
import MemberAccess.Proofs.Overload.Subtyping

/-!
# Rings of arrays

The component of a class of arrays may be a class of arrays in turn. Two such classes are compared by their
components, so a comparison goes down as far as the arrays do. A host that names classes by their positions can ask for
the arrays of a class that is not there yet. The class that is made for them takes the next position, and when that is
the one that was named, the class holds itself, at once or some layers down. Nothing else keeps a chain of components
from coming to an end.

* `Registry.component?`, `Registry.descend`: one layer down, and any number of them.
* `Registry.Ends`, `Registry.OnRing`: a chain of components that ends, and a type that comes up again below itself.
* `ends_iff`: a chain that does not end is a ring from its first type on.
* `Registry.Compares`: the comparison of two classes with no bound on its depth.
* `Store.ClosesRing`: a request makes a class below its own component.
* `Store.components_end_iff`: what ends and what does not, in every store.
-/

namespace MemberAccess

namespace Registry

variable {r r' : Registry} {t u v : Ty} {a b : ClassId}

/-- The component of a type that is a class of arrays. -/
def component? (r : Registry) : Ty → Option Ty
  | .ofClass c => (r.class? c).bind (·.component)
  | _ => none

/-- The type so many layers down. -/
def descend (r : Registry) : Nat → Ty → Option Ty
  | 0, t => some t
  | n + 1, t => (r.component? t).bind (r.descend n)

/-- Going down from `t` ends at `u`, which is no class of arrays. -/
def EndsAt (r : Registry) (t u : Ty) : Prop := (∃ n, r.descend n t = some u) ∧ r.component? u = none

def Ends (r : Registry) (t : Ty) : Prop := ∃ u, r.EndsAt t u

/-- A type that is met again some layers below itself. -/
def OnRing (r : Registry) (t : Ty) : Prop := ∃ n, r.descend (n + 1) t = some t

/-! ## Going down -/

theorem component?_eq_some_iff : r.component? t = some u ↔ ∃ c d, t = .ofClass c ∧ r.class? c = some d ∧
    d.component = some u := by
  cases t <;> simp [component?, Option.bind_eq_some_iff]

theorem descend_add (r : Registry) (m n : Nat) (t : Ty) : r.descend (m + n) t = (r.descend m t).bind (r.descend n) := by
  induction m generalizing t with
  | zero => rw [Nat.zero_add]; rfl
  | succ m ih =>
    rw [Nat.succ_add]
    change (r.component? t).bind (r.descend (m + n)) = ((r.component? t).bind (r.descend m)).bind (r.descend n)
    rw [Option.bind_assoc]
    congr 1
    funext u
    exact ih u

theorem descend_of_component (h : r.component? t = some u) (n : Nat) : r.descend (n + 1) t = r.descend n u := by
  simp [descend, h]

theorem descend_component (r : Registry) (n : Nat) (t : Ty) :
    r.descend (n + 1) t = (r.descend n t).bind r.component? := by
  rw [descend_add]
  congr 1
  funext u
  simp [descend]

theorem EndsAt.here (h : r.component? t = none) : r.EndsAt t t := ⟨⟨0, rfl⟩, h⟩

theorem EndsAt.below {n : Nat} (hn : r.descend n t = some u) (h : r.EndsAt u v) : r.EndsAt t v := by
  obtain ⟨⟨m, hm⟩, hnone⟩ := h
  refine ⟨⟨n + m, ?_⟩, hnone⟩
  rw [descend_add, hn]
  exact hm

theorem Ends.of_component (h : r.component? t = some u) (hu : r.Ends u) : r.Ends t := by
  obtain ⟨v, hv⟩ := hu
  refine ⟨v, hv.below (n := 1) ?_⟩
  rw [descend_of_component h]
  rfl

/-- A chain ends when there are only so many layers. -/
theorem ends_iff_descend : r.Ends t ↔ ∃ n, r.descend n t = none := by
  constructor
  · rintro ⟨u, ⟨n, hn⟩, hnone⟩
    refine ⟨n + 1, ?_⟩
    rw [descend_component, hn]
    exact hnone
  · rintro ⟨n, hn⟩
    induction n generalizing t with
    | zero => cases hn
    | succ n ih =>
      cases h : r.component? t with
      | none => exact ⟨t, .here h⟩
      | some u => exact .of_component h (ih (by rw [← hn, descend_of_component h]))

/-! ## Rings -/

theorem ArraysApart.component_inj (hapart : r.ArraysApart) (h : r.component? t = some v)
    (h' : r.component? u = some v) : t = u := by
  obtain ⟨c, d, rfl, hd, hcomponent⟩ := component?_eq_some_iff.1 h
  obtain ⟨c', d', rfl, hd', hcomponent'⟩ := component?_eq_some_iff.1 h'
  rw [hapart c c' d d' v hd hd' hcomponent hcomponent']

/-- What lies so many layers above a type is one type at most. -/
theorem ArraysApart.descend_inj (hapart : r.ArraysApart) {n : Nat} (h : r.descend n t = some v)
    (h' : r.descend n u = some v) : t = u := by
  induction n generalizing v with
  | zero =>
    cases h
    cases h'
    rfl
  | succ n ih =>
    rw [descend_component, Option.bind_eq_some_iff] at h h'
    obtain ⟨x, hx, hv⟩ := h
    obtain ⟨y, hy, hv'⟩ := h'
    rw [hapart.component_inj hv hv'] at hx
    exact ih hx hy

/-- There is always a next layer on a ring. -/
theorem OnRing.descend_ne_none (h : r.OnRing t) (n : Nat) : r.descend n t ≠ none := by
  induction n generalizing t with
  | zero => exact nofun
  | succ n ih =>
    obtain ⟨m, hm⟩ := h
    obtain ⟨u, hu, hback⟩ := Option.bind_eq_some_iff.1 hm
    have hring : r.OnRing u := by
      refine ⟨m, ?_⟩
      rw [descend_component, hback]
      exact hu
    rw [descend_of_component hu]
    exact ih hring

/-- **Past as many layers as there are classes lies a ring**, and it goes through the type at the top: the classes on
the way cannot all be different, and where two are the same, so are those above them. -/
theorem ArraysApart.onRing (hapart : r.ArraysApart) (h : r.descend (r.size + 1) t ≠ none) : r.OnRing t := by
  have hlayer : ∀ i, ∃ c : ClassId, i < r.size + 1 → c.index < r.size ∧ r.descend i t = some (.ofClass c) := by
    intro i
    by_cases hi : i < r.size + 1
    · obtain ⟨k, hk⟩ := Nat.exists_eq_add_of_lt hi
      rw [show r.size + 1 = i + 1 + k by omega, descend_add, descend_component] at h
      obtain ⟨u, hu⟩ := Option.ne_none_iff_exists'.1 h
      obtain ⟨x, hx, -⟩ := Option.bind_eq_some_iff.1 hu
      obtain ⟨y, hy, hcomponent⟩ := Option.bind_eq_some_iff.1 hx
      obtain ⟨c, d, rfl, hd, -⟩ := component?_eq_some_iff.1 hcomponent
      exact ⟨c, fun _ => ⟨index_lt hd, hy⟩⟩
    · exact ⟨.object, fun h => absurd h hi⟩
  choose f hf using hlayer
  have hcard : (Finset.range r.size).card < (Finset.range (r.size + 1)).card := by
    rw [Finset.card_range, Finset.card_range]
    exact Nat.lt_succ_self _
  obtain ⟨i, hi, j, hj, hne, hsame⟩ := Finset.exists_ne_map_eq_of_card_lt_of_maps_to hcard
    (f := fun i => (f i).index) fun i hi => Finset.mem_coe.2 (Finset.mem_range.2 (hf i (Finset.mem_range.1 hi)).1)
  have hclose : ∀ i j, i < j → j < r.size + 1 → (f i).index = (f j).index → r.OnRing t := by
    intro i j hij hj hsame
    have hi' := (hf i (by omega)).2
    have hj' := (hf j hj).2
    rw [show f j = f i from (congrArg ClassId.mk hsame).symm] at hj'
    -- the lower of the two lies below the type that lies `j - i` layers down
    rw [show j = (j - i - 1 + 1) + i by omega, descend_add, Option.bind_eq_some_iff] at hj'
    obtain ⟨x, hx, hlow⟩ := hj'
    rw [hapart.descend_inj hlow hi'] at hx
    exact ⟨_, hx⟩
  rcases Nat.lt_or_gt_of_ne hne with hlt | hlt
  · exact hclose i j hlt (Finset.mem_range.1 hj) hsame
  · exact hclose j i hlt (Finset.mem_range.1 hi) hsame.symm

/-- **A chain ends unless it comes back to where it began.** -/
theorem ends_iff (hapart : r.ArraysApart) : r.Ends t ↔ ¬r.OnRing t := by
  rw [ends_iff_descend]
  constructor
  · rintro ⟨n, hn⟩ hring
    exact hring.descend_ne_none n hn
  · intro h
    refine ⟨r.size + 1, ?_⟩
    by_contra hne
    exact h (hapart.onRing hne)

/-- A chain that ends has no more layers than there are classes. -/
theorem Ends.descend_size (hapart : r.ArraysApart) (h : r.Ends t) : r.descend (r.size + 1) t = none := by
  by_contra hne
  exact (ends_iff hapart).1 h (hapart.onRing hne)

/-! ## Comparisons -/

/-- Two classes of arrays of references, and the classes of the references. -/
def Covariant (r : Registry) (a b a' b' : ClassId) : Prop :=
  r.component? (.ofClass a) = some (.ofClass a') ∧ r.component? (.ofClass b) = some (.ofClass b')

/-- The comparison of two classes, which goes down for as long as it finds arrays of references. -/
inductive Compares (r : Registry) : ClassId → ClassId → Option Nat → Prop where
  | same (a : ClassId) : r.Compares a a (some 0)
  | components {a b a' b' : ClassId} {k : Option Nat} (hne : a ≠ b) (h : r.Covariant a b a' b')
      (rest : r.Compares a' b' k) : r.Compares a b k
  /-- other classes have a distance without going down -/
  | other {a b : ClassId} (hne : a ≠ b) (h : ∀ a' b', ¬r.Covariant a b a' b') : r.Compares a b (r.distanceWithin 0 a b)

theorem distanceWithin_covariant {a' b' : ClassId} (hne : a ≠ b) (h : r.Covariant a b a' b') (n : Nat) :
    r.distanceWithin (n + 1) a b = r.distanceWithin n a' b' := by
  obtain ⟨⟨c, d, hc, hd, hdc⟩, ⟨c', e, hc', he, hec⟩⟩ :=
    And.intro (component?_eq_some_iff.1 h.1) (component?_eq_some_iff.1 h.2)
  cases hc
  cases hc'
  rw [distanceWithin, if_neg hne]
  simp only [hd, he, hdc, hec]

theorem distanceWithin_other (h : ∀ a' b', ¬r.Covariant a b a' b') (n : Nat) :
    r.distanceWithin n a b = r.distanceWithin 0 a b := by
  unfold distanceWithin
  split
  · rfl
  · split
    · rename_i hd he
      split
      · -- two arrays of references are none of these
        rename_i a' b' hdc hec
        exact absurd ⟨component?_eq_some_iff.2 ⟨_, _, rfl, hd, hdc⟩, component?_eq_some_iff.2 ⟨_, _, rfl, he, hec⟩⟩
          (h a' b')
      · rfl
      · rfl
    · rfl

/-- A comparison ends when one of the two chains does. -/
theorem exists_compares {n : Nat} (h : r.descend n (.ofClass a) = none ∨ r.descend n (.ofClass b) = none) :
    ∃ k, r.Compares a b k := by
  induction n generalizing a b with
  | zero => rcases h with h | h <;> cases h
  | succ n ih =>
    by_cases hne : a = b
    · subst hne
      exact ⟨_, .same a⟩
    · by_cases hdown : ∃ a' b', r.Covariant a b a' b'
      · obtain ⟨a', b', hdown⟩ := hdown
        rw [descend_of_component hdown.1, descend_of_component hdown.2] at h
        obtain ⟨k, hk⟩ := ih h
        exact ⟨k, .components hne hdown hk⟩
      · push Not at hdown
        exact ⟨_, .other hne hdown⟩

/-- Two chains that never end are compared for ever, unless they begin at one class. -/
theorem Compares.ends (hapart : r.ArraysApart) {k : Option Nat} (h : r.Compares a b k) :
    a = b ∨ r.Ends (.ofClass a) ∨ r.Ends (.ofClass b) := by
  induction h with
  | same a => exact .inl rfl
  | components hne hdown _ ih =>
    rcases ih with heq | ha | hb
    · -- one component has one class of arrays
      rw [Covariant, ← heq] at hdown
      exact absurd (Ty.ofClass.inj (hapart.component_inj hdown.1 hdown.2)) hne
    · exact .inr (.inl (ha.of_component hdown.1))
    · exact .inr (.inr (hb.of_component hdown.2))
  | @other a b hne hnone =>
    refine .inr ?_
    by_contra hboth
    push Not at hboth
    -- a chain that does not end goes on to a class
    have hnext : ∀ c, ¬r.Ends (.ofClass c) → ∃ c', r.component? (.ofClass c) = some (.ofClass c') := by
      intro c hc
      cases h : r.component? (.ofClass c) with
      | none => exact absurd ⟨_, .here h⟩ hc
      | some t =>
        cases t with
        | ofClass c' => exact ⟨c', rfl⟩
        | primitive | null => exact absurd (Ends.of_component h ⟨_, .here rfl⟩) hc
    obtain ⟨a', ha⟩ := hnext a hboth.1
    obtain ⟨b', hb⟩ := hnext b hboth.2
    exact hnone a' b' ⟨ha, hb⟩

theorem Compares.distanceWithin {k : Option Nat} (h : r.Compares a b k) {n : Nat}
    (hn : a = b ∨ r.descend (n + 1) (.ofClass a) = none ∨ r.descend (n + 1) (.ofClass b) = none) :
    r.distanceWithin n a b = k := by
  induction h generalizing n with
  | same a => unfold Registry.distanceWithin; rw [if_pos rfl]
  | components hne hdown _ ih =>
    rw [descend_of_component hdown.1, descend_of_component hdown.2] at hn
    rcases hn with heq | hn
    · exact absurd heq hne
    · cases n with
      | zero => rcases hn with hn | hn <;> cases hn
      | succ n =>
        rw [distanceWithin_covariant hne hdown]
        exact ih (.inr hn)
  | other hne hnone => exact distanceWithin_other hnone n

/-- **The bound on the depth of a comparison makes no difference** to one that ends. -/
theorem Compares.distance (hapart : r.ArraysApart) {k : Option Nat} (h : r.Compares a b k) : r.distance a b = k := by
  apply h.distanceWithin
  rcases h.ends hapart with heq | ha | hb
  · exact .inl heq
  · refine .inr (.inl ?_)
    rw [descend_component, ha.descend_size hapart]
    rfl
  · refine .inr (.inr ?_)
    rw [descend_component, hb.descend_size hapart]
    rfl

/-! ## Registries that grow -/

theorem descend_congr (h : r'.component? = r.component?) : r'.descend = r.descend := by
  funext n
  induction n with
  | zero => rfl
  | succ n ih =>
    funext t
    rw [descend, descend, h, ih]

theorem GrowsTo.component? (hr : r.GrowsTo r') (h : r.component? t = some u) : r'.component? t = some u := by
  obtain ⟨c, d, rfl, hd, hcomponent⟩ := component?_eq_some_iff.1 h
  exact component?_eq_some_iff.2 ⟨c, d, rfl, hr.class?_some hd, hcomponent⟩

theorem GrowsTo.descend (hr : r.GrowsTo r') {n : Nat} (h : r.descend n t = some u) : r'.descend n t = some u := by
  induction n generalizing t with
  | zero => exact h
  | succ n ih =>
    obtain ⟨v, hv, hrest⟩ := Option.bind_eq_some_iff.1 h
    rw [descend_of_component (hr.component? hv)]
    exact ih hrest

theorem component?_next (r : Registry) : r.component? (.ofClass r.next) = none := by
  simp [Registry.component?, class?, next, size]

theorem component?_push (r : Registry) (make : ClassId → ClassDef) (t : Ty) :
    (r.push make).component? t = if t = .ofClass r.next then (make r.next).component else r.component? t := by
  split
  · rename_i h
    subst h
    simp [Registry.component?, class?, push, next, size]
  · rename_i hne
    cases h : (r.push make).component? t with
    | none =>
      cases h' : r.component? t with
      | none => rfl
      | some u => rw [(growsTo_push r make).component? h'] at h; cases h
    | some u =>
      obtain ⟨c, d, rfl, hd, hcomponent⟩ := component?_eq_some_iff.1 h
      rcases class?_push hd with hd | ⟨rfl, -⟩
      · exact (component?_eq_some_iff.2 ⟨c, d, rfl, hd, hcomponent⟩).symm
      · exact absurd rfl hne

/-- A type has no class of arrays when it is the component of none. -/
theorem arrayOf?_eq_none_iff : r.arrayOf? t = none ↔ ∀ u, r.component? u ≠ some t := by
  unfold arrayOf?
  rw [Option.map_eq_none_iff, List.find?_eq_none]
  constructor
  · intro h u hu
    obtain ⟨c, d, -, hd, hcomponent⟩ := component?_eq_some_iff.1 hu
    exact h d (mem_classes_iff.2 ⟨c, hd⟩) (by simp [hcomponent])
  · intro h d hd hcomponent
    obtain ⟨c, hc⟩ := mem_classes_iff.1 hd
    exact h (.ofClass c) (component?_eq_some_iff.2 ⟨c, d, rfl, hc, by simpa using hcomponent⟩)

end Registry

/-- The component of the arrays that a request is for. -/
def Request.component? : Request → Option Ty
  | .arrayClass t | .newArray t _ => some t
  | .register _ | .retire _ => none

namespace Store

open Registry

variable {s : Store} {q : Request}

/-- The class of arrays of a component is made on a request. -/
def Makes (s : Store) (q : Request) (t : Ty) : Prop :=
  s.registry.arrayOf? t = none ∧ ((s.serve q).2.registry.arrayOf? t).isSome = true

/-- The class that is made on a request is what its component leads down to. -/
def ClosesRing (s : Store) (q : Request) : Prop :=
  ∃ t, s.Makes q t ∧ s.registry.EndsAt t (.ofClass s.registry.next)

/-- No request in a row closes a ring. -/
def RingFree (s : Store) : List Request → Prop
  | [] => True
  | q :: rest => ¬s.ClosesRing q ∧ (s.serve q).2.RingFree rest

/-- What a request does to the components: nothing, or the next class gets one that no class had. -/
theorem serve_components (s : Store) (q : Request) :
    (s.serve q).2.registry.component? = s.registry.component? ∨
    ∃ t, q.component? = some t ∧ s.registry.arrayOf? t = none ∧ ∀ u, (s.serve q).2.registry.component? u =
      if u = .ofClass s.registry.next then some t else s.registry.component? u := by
  have harray : ∀ t, (s.registry.arrayClass t).2.component? = s.registry.component? ∨
      ∃ t', some t = some t' ∧ s.registry.arrayOf? t' = none ∧ ∀ u, (s.registry.arrayClass t).2.component? u =
        if u = .ofClass s.registry.next then some t' else s.registry.component? u := by
    intro t
    rcases s.registry.arrayClass_cases t with ⟨c, -, e⟩ | ⟨hnone, e⟩ <;> rw [e]
    · exact .inl rfl
    · exact .inr ⟨t, rfl, hnone, component?_push s.registry _⟩
  cases q with
  | register d =>
    left
    simp only [serve]
    cases hok : s.registry.register d with
    | error f => rfl
    | ok answer =>
      obtain ⟨c, r⟩ := answer
      obtain ⟨-, -, -, -, rfl⟩ := register_ok hok
      -- a declared class has no component, and neither had its position
      funext t
      rw [component?_push]
      split
      · rename_i h
        rw [h, component?_next]
        rfl
      · rfl
  | arrayClass t => exact harray t
  | newArray t items =>
    simp only [serve]
    cases hok : s.registry.newArray s.heap t items with
    | error f => exact .inl rfl
    | ok answer =>
      obtain ⟨array, r, h⟩ := answer
      obtain ⟨-, -, rfl, -⟩ := newArray_ok hok
      exact harray t
  | retire c =>
    left
    change (s.registry.retire c).2.component? = _
    rcases s.registry.retire_cases c with ⟨-, -, e⟩ | e
    · rw [e]
      rfl
    · rw [e]

/-- The class that is made is the next one, and it has the component that the request is for. -/
theorem Makes.component {t : Ty} (h : s.Makes q t) :
    q.component? = some t ∧ (s.serve q).2.registry.component? (.ofClass s.registry.next) = some t := by
  obtain ⟨hnone, hmade⟩ := h
  obtain ⟨u, hu⟩ : ∃ u, (s.serve q).2.registry.component? u = some t := by
    by_contra hno
    push Not at hno
    rw [arrayOf?_eq_none_iff.2 hno] at hmade
    cases hmade
  have hold := arrayOf?_eq_none_iff.1 hnone u
  rcases s.serve_components q with hsame | ⟨t', hq, -, hnew⟩
  · rw [hsame] at hu
    exact absurd hu hold
  · rw [hnew, if_pos rfl]
    rw [hnew] at hu
    split at hu
    · exact ⟨hq.trans hu, hu⟩
    · exact absurd hu hold

/-- A component that comes in is that of a class that is made. -/
theorem makes_of_component {t u : Ty} (hold : s.registry.component? u ≠ some t)
    (h : (s.serve q).2.registry.component? u = some t) : s.Makes q t := by
  have hmade : (s.serve q).2.registry.arrayOf? t ≠ none := fun hno => arrayOf?_eq_none_iff.1 hno u h
  refine ⟨?_, Option.isSome_iff_ne_none.2 hmade⟩
  rcases s.serve_components q with hsame | ⟨t', -, hnone, hnew⟩
  · rw [hsame] at h
    exact absurd h hold
  · rw [hnew] at h
    split at h
    · cases h
      exact hnone
    · exact absurd h hold

/-- The new class lies below the component, which lies below the new class. -/
theorem ClosesRing.onRing (h : s.ClosesRing q) : (s.serve q).2.registry.OnRing (.ofClass s.registry.next) := by
  obtain ⟨t, hmakes, ⟨n, hn⟩, -⟩ := h
  refine ⟨n, ?_⟩
  rw [descend_of_component hmakes.component.2]
  exact (s.growsTo_serve q).descend hn

theorem ends_of_ends_serve {t : Ty} (h : (s.serve q).2.registry.Ends t) : s.registry.Ends t := by
  obtain ⟨n, hn⟩ := ends_iff_descend.1 h
  refine ends_iff_descend.2 ⟨n, ?_⟩
  cases hold : s.registry.descend n t with
  | none => rfl
  | some u =>
    rw [(s.growsTo_serve q).descend hold] at hn
    cases hn

/-- When no ring is closed, a chain that ended at the class that is made now goes on to its component, and ends. -/
theorem ends_serve (h : ∀ t, s.registry.Ends t) (hopen : ¬s.ClosesRing q) (t : Ty) : (s.serve q).2.registry.Ends t := by
  have hr := s.growsTo_serve q
  rcases s.serve_components q with hsame | ⟨t', -, -, hnew⟩
  · obtain ⟨n, hn⟩ := ends_iff_descend.1 (h t)
    exact ends_iff_descend.2 ⟨n, by rw [descend_congr hsame, hn]⟩
  · have helsewhere : ∀ {t u}, u ≠ .ofClass s.registry.next → s.registry.EndsAt t u →
        (s.serve q).2.registry.EndsAt t u := by
      rintro t u hne ⟨⟨n, hn⟩, hu⟩
      exact ⟨⟨n, hr.descend hn⟩, by rw [hnew, if_neg hne, hu]⟩
    have hmade : (s.serve q).2.registry.component? (.ofClass s.registry.next) = some t' := by rw [hnew, if_pos rfl]
    have hmakes : s.Makes q t' := makes_of_component (by rw [component?_next]; exact nofun) hmade
    obtain ⟨u, hu⟩ := h t
    by_cases hnext : u = .ofClass s.registry.next
    · subst hnext
      obtain ⟨v, hv⟩ := h t'
      have hne : v ≠ .ofClass s.registry.next := by
        rintro rfl
        exact hopen ⟨t', hmakes, hv⟩
      obtain ⟨⟨n, hn⟩, -⟩ := hu
      refine ⟨v, (helsewhere hne hv).below (n := n + 1) ?_⟩
      rw [descend_component, hr.descend hn, Option.bind_some, hmade]
    · exact ⟨u, helsewhere hnext hu⟩

/-- **All chains end after a request** if they did before and it closes no ring. -/
theorem ends_serve_iff (s : Store) (q : Request) :
    (∀ t, (s.serve q).2.registry.Ends t) ↔ (∀ t, s.registry.Ends t) ∧ ¬s.ClosesRing q := by
  constructor
  · refine fun h => ⟨fun t => ends_of_ends_serve (h t), fun hcloses => ?_⟩
    obtain ⟨n, hn⟩ := ends_iff_descend.1 (h (.ofClass s.registry.next))
    exact hcloses.onRing.descend_ne_none n hn
  · rintro ⟨h, hopen⟩ t
    exact ends_serve h hopen t

/-- **All chains end after any number of requests** if none of those closes a ring. -/
theorem ends_serveAll_iff (s : Store) (qs : List Request) :
    (∀ t, (s.serveAll qs).registry.Ends t) ↔ (∀ t, s.registry.Ends t) ∧ s.RingFree qs := by
  induction qs generalizing s with
  | nil => exact ⟨fun h => ⟨h, trivial⟩, fun h => h.1⟩
  | cons q rest ih =>
    change (∀ t, ((s.serve q).2.serveAll rest).registry.Ends t) ↔ _
    rw [ih, ends_serve_iff, and_assoc]
    rfl

theorem component?_start (heap : Heap) (t : Ty) : (start heap).registry.component? t = none := by
  cases h : (start heap).registry.component? t with
  | none => rfl
  | some u =>
    obtain ⟨c, d, -, hd, hcomponent⟩ := component?_eq_some_iff.1 h
    obtain ⟨decl, rfl⟩ := class?_initial hd
    cases hcomponent

/-! ## Hosts that name what is there -/

/-- The arrays that are asked for are those of registered classes or of no class. -/
def AsksKnown (s : Store) : List Request → Prop
  | [] => True
  | q :: rest => (∀ t ∈ q.component?, t.KnownTo s.registry) ∧ (s.serve q).2.AsksKnown rest

/-- **A host that registers a class before it asks for arrays of it closes no ring**: no component ever leads to a
position that is not taken. -/
theorem AsksKnown.ringFree {qs : List Request} (h : s.AsksKnown qs)
    (hs : ∀ {t u}, s.registry.component? t = some u → u.KnownTo s.registry) : s.RingFree qs := by
  induction qs generalizing s with
  | nil => trivial
  | cons q rest ih =>
    obtain ⟨hknown, hrest⟩ := h
    refine ⟨?_, ih hrest ?_⟩
    · rintro ⟨t, hmakes, ⟨n, hn⟩, -⟩
      have hdown : (Ty.ofClass s.registry.next).KnownTo s.registry := by
        cases n with
        | zero =>
          cases hn
          exact hknown _ hmakes.component.1
        | succ n =>
          rw [descend_component, Option.bind_eq_some_iff] at hn
          obtain ⟨u, -, hu⟩ := hn
          exact hs hu
      exact absurd (hdown s.registry.next rfl) (Nat.lt_irrefl _)
    · intro t u hu
      refine Ty.KnownTo.growsTo (s.growsTo_serve q) ?_
      by_cases hold : s.registry.component? t = some u
      · exact hs hold
      · exact hknown u (makes_of_component hold hu).component.1

/-- **What ends and what does not, in every store.** All chains of components end exactly when no request has made a
class of arrays below its own component, which none does that is for arrays of a registered class. A chain that does
not end comes back to where it began. Two different classes are compared for ever exactly when neither of their chains
ends, and when a comparison ends, the distance is what it leads to, however many layers it goes down. -/
theorem components_end_iff (heap : Heap) (qs : List Request) :
    let r := ((start heap).serveAll qs).registry
    ((∀ t, r.Ends t) ↔ (start heap).RingFree qs) ∧ ((start heap).AsksKnown qs → (start heap).RingFree qs) ∧
      (∀ t, r.Ends t ↔ ¬r.OnRing t) ∧
      (∀ a b, (∃ k, r.Compares a b k) ↔ a = b ∨ r.Ends (.ofClass a) ∨ r.Ends (.ofClass b)) ∧
      ∀ a b k, r.Compares a b k → r.distance a b = k := by
  intro r
  have hapart := arraysApart_serveAll heap qs
  have hfirst := component?_start heap
  refine ⟨?_, fun h => h.ringFree ?_, fun t => ends_iff hapart, fun a b => ⟨?_, ?_⟩, fun a b k h => h.distance hapart⟩
  · rw [ends_serveAll_iff]
    exact ⟨fun h => h.2, fun h => ⟨fun t => ⟨t, .here (hfirst t)⟩, h⟩⟩
  · intro t u h
    rw [hfirst] at h
    cases h
  · rintro ⟨k, hk⟩
    exact hk.ends hapart
  · rintro (rfl | ha | hb)
    · exact ⟨_, .same a⟩
    · obtain ⟨n, hn⟩ := ends_iff_descend.1 ha
      exact exists_compares (.inl hn)
    · obtain ⟨n, hn⟩ := ends_iff_descend.1 hb
      exact exists_compares (.inr hn)

/-- Arrays of strings and of what strings are, and arrays of those. -/
def nested : List Request :=
  [.arrayClass (.ofClass .string), .arrayClass (.ofClass .charSequence), .arrayClass (.ofClass ⟨19⟩),
    .arrayClass (.ofClass ⟨20⟩)]

/-- All chains end, and the distance between the arrays of arrays is that of their elements. -/
theorem components_end_nested :
    let r := ((start .empty).serveAll nested).registry
    (start .empty).AsksKnown nested ∧ (∀ t, r.Ends t) ∧ r.Compares ⟨21⟩ ⟨22⟩ (some 1) ∧
      r.distance ⟨21⟩ ⟨22⟩ = some 1 := by
  intro r
  have hknown : (start .empty).AsksKnown nested := by
    refine ⟨?_, ?_, ?_, ?_, trivial⟩ <;> decide +kernel
  have hcompares : r.Compares ⟨21⟩ ⟨22⟩ (some 1) := by
    have houter : r.Covariant ⟨21⟩ ⟨22⟩ ⟨19⟩ ⟨20⟩ := ⟨by decide +kernel, by decide +kernel⟩
    have hinner : r.Covariant ⟨19⟩ ⟨20⟩ .string .charSequence := ⟨by decide +kernel, by decide +kernel⟩
    refine .components (by decide) houter (.components (by decide) hinner ?_)
    have hplain : r.component? (.ofClass .string) = none := by decide +kernel
    have hother : ∀ a' b', ¬r.Covariant .string .charSequence a' b' := by
      rintro a' b' ⟨h, -⟩
      rw [hplain] at h
      cases h
    have hone : r.distanceWithin 0 .string .charSequence = some 1 := by decide +kernel
    rw [← hone]
    exact .other (by decide) hother
  obtain ⟨hends, hfree, -, -, hdistance⟩ := components_end_iff .empty nested
  exact ⟨hknown, hends.2 (hfree hknown), hcompares, hdistance _ _ _ hcompares⟩

/-- Asked for the arrays of the class that comes next, and then for those of the class after it. -/
def rings : List Request := [.arrayClass (.ofClass ⟨19⟩), .arrayClass (.ofClass ⟨20⟩)]

/-- Each of two classes can be its own component. Their chains never end, and neither does their comparison. -/
theorem not_components_end :
    (¬∀ (heap : Heap) (qs : List Request) (t : Ty), ((start heap).serveAll qs).registry.Ends t) ∧
    ¬∀ (heap : Heap) (qs : List Request) (a b : ClassId), ∃ k, ((start heap).serveAll qs).registry.Compares a b k := by
  let r := ((start .empty).serveAll rings).registry
  have hring : ∀ c ∈ [ClassId.mk 19, ⟨20⟩], ¬r.Ends (.ofClass c) := by
    intro c hc
    have hself : r.descend 1 (.ofClass c) = some (.ofClass c) := by
      revert hc c
      decide +kernel
    exact fun h => (ends_iff (arraysApart_serveAll .empty rings)).1 h ⟨0, hself⟩
  refine ⟨fun h => hring ⟨19⟩ (by decide) (h .empty rings (.ofClass ⟨19⟩)), fun h => ?_⟩
  obtain ⟨k, hk⟩ := h .empty rings ⟨19⟩ ⟨20⟩
  rcases hk.ends (arraysApart_serveAll .empty rings) with heq | h19 | h20
  · cases heq
  · exact hring ⟨19⟩ (by decide) h19
  · exact hring ⟨20⟩ (by decide) h20

end Store

end MemberAccess
