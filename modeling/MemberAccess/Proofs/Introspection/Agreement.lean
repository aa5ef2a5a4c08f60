import MemberAccess.Proofs.Introspection.Coherence
import MemberAccess.Proofs.Introspection.Recall

/-!
# What queries leave alone

A query may make a map, drop one or have it remember a signature, and what a memory says of every class stays the
same. So what a query answers does not depend on the queries before it, in one registry, whatever the memory holds:
what it holds need not be what would be found now.

* `Introspector.Agrees`: two memories that say the same of every class.
* `agrees_ask`: a memory agrees with itself after a query.
* `Agrees.findMethod`, `Agrees.findField`: memories that agree answer the same.
-/

namespace MemberAccess

variable {r : Registry} {k k' k'' : Introspector} {c : ClassId}

namespace ClassMap

theorem Agrees.refl (r : Registry) (m : ClassMap) : m.Agrees r m := ⟨rfl, rfl, rfl, rfl, fun _ => rfl⟩

theorem Agrees.trans {l m n : ClassMap} (h : l.Agrees r m) (h' : m.Agrees r n) : l.Agrees r n where
  cls := h.cls.trans h'.cls
  className := h.className.trans h'.className
  admitted := h.admitted.trans h'.admitted
  fields := h.fields.trans h'.fields
  lookup s := (h.lookup s).trans (h'.lookup s)

/-- A map that remembers a signature looks every signature up as before. -/
theorem agrees_remember (m : ClassMap) (r : Registry) (s : Signature) : m.Agrees r (m.remember r s) where
  cls := rfl
  className := rfl
  admitted := rfl
  fields := rfl
  lookup s' := by
    by_cases hs : s = s'
    · subst hs
      rw [lookup_of_known (m.get?_remember_self r s)]
    · have hget : Assoc.get? s' (m.remember r s).index = Assoc.get? s' m.index := by
        simp only [remember, Assoc.get?_put, hs, if_false]
      unfold lookup
      rw [hget]
      rfl

end ClassMap

namespace Introspector

/-- Two memories that say the same of every class. -/
def Agrees (r : Registry) (k k' : Introspector) : Prop :=
  ∀ c, Option.Rel (ClassMap.Agrees r) (k.mapOf r c).1 (k'.mapOf r c).1

theorem rel_agrees_refl (m : Option ClassMap) : Option.Rel (ClassMap.Agrees r) m m := by
  cases m with
  | none => exact .none
  | some m => exact .some (.refl r m)

theorem Agrees.refl (r : Registry) (k : Introspector) : k.Agrees r k := fun _ => rel_agrees_refl _

theorem Agrees.trans (h : k.Agrees r k') (h' : k'.Agrees r k'') : k.Agrees r k'' := by
  intro c
  have hfirst := h c
  have hsecond := h' c
  generalize (k.mapOf r c).1 = first at hfirst ⊢
  generalize (k'.mapOf r c).1 = middle at hfirst hsecond
  generalize (k''.mapOf r c).1 = last at hsecond ⊢
  cases hfirst with
  | none => exact hsecond
  | some hm =>
    cases hsecond with
    | some hm' => exact .some (hm.trans hm')

/-- **Two memories agree** when the later one keeps, for each living class, what the other one keeps or says of it. -/
theorem agrees_of_get? (hk : k.InOrder) (hk' : k'.InOrder) (hpolicy : k'.policy = k.policy)
    (h : ∀ c, r.isAlive c = true → Assoc.get? c k'.maps = Assoc.get? c k.maps ∨
      ∃ kept, Assoc.get? c k'.maps = some kept ∧ Option.Rel (ClassMap.Agrees r) (k.mapOf r c).1 kept) :
    k.Agrees r k' := by
  intro c
  cases hc : r.isAlive c with
  | false =>
    rw [mapOf_dead hk hc, mapOf_dead hk' hc]
    exact .none
  | true =>
    rcases h c hc with hget | ⟨kept, hget, hrel⟩
    · cases hkept : Assoc.get? c k.maps with
      | some kept =>
        rw [mapOf_of_kept hk hc hkept, mapOf_of_kept hk' hc (hget.trans hkept)]
        exact rel_agrees_refl kept
      | none =>
        -- both make a map, and only the serials may differ
        have hmade : ∀ {k : Introspector}, Assoc.get? c k.maps = none →
            (k.mapOf r c).1 = (ClassMap.build r k.policy c).map ({ · with serial := k.serials }) := by
          intro k hnone
          unfold mapOf
          rw [hnone]
        rw [hmade hkept, hmade (hget.trans hkept), hpolicy]
        cases ClassMap.build r k.policy c with
        | none => exact .none
        | some m => exact .some ⟨rfl, rfl, rfl, rfl, fun _ => rfl⟩
    · rw [mapOf_of_kept hk' hc hget]
      exact hrel

theorem policy_mapOf (k : Introspector) (r : Registry) (c : ClassId) : (k.mapOf r c).2.policy = k.policy := by
  rcases mapOf_cases k r c with ⟨_, -, -, e⟩ | ⟨_, -, -, e⟩ | ⟨-, e⟩ <;> simp only [e]
  rfl

theorem agrees_mapOf (hk : k.InOrder) (r : Registry) (c : ClassId) : k.Agrees r (k.mapOf r c).2 := by
  refine agrees_of_get? hk (hk.mapOf r c) (k.policy_mapOf r c) ?_
  intro c' hc'
  by_cases hc : c = c'
  · subst hc
    exact .inr ⟨_, get?_mapOf_alive hk hc', rel_agrees_refl _⟩
  · -- of other classes nothing changes
    left
    rcases mapOf_cases k r c with ⟨_, -, -, e⟩ | ⟨_, -, -, e⟩ | ⟨-, e⟩ <;> rw [e]
    · unfold Introspector.purge
      simp only [Assoc.get?_erase, hc, if_false]
    · simp only [Assoc.get?_put, hc, if_false]

theorem agrees_findMethod (hk : k.InOrder) (r : Registry) (c : ClassId) (s : Signature) :
    k.Agrees r (k.findMethod r c s).2 := by
  have hmap := agrees_mapOf hk r c
  have hk' := hk.findMethod r c s
  rcases findMethod_cases k r c s with ⟨-, e⟩ | ⟨m, k', hm, e⟩ <;> rw [e] at hk' ⊢
  · exact hmap
  · -- the map of the class has looked the signature up
    have hk₁ := hk.mapOf r c
    rw [hm] at hmap hk₁
    refine hmap.trans (agrees_of_get? hk₁ hk' rfl ?_)
    intro c' hc'
    by_cases hc : c = c'
    · subst hc
      rw [mapOf_of_kept hk₁ hc' (get?_mapOf hm).1]
      refine .inr ⟨some (m.remember r s), ?_, .some (m.agrees_remember r s)⟩
      rw [Assoc.get?_put, if_pos rfl]
    · left
      rw [Assoc.get?_put, if_neg hc]

/-- **After a query a memory says the same.** -/
theorem agrees_ask (hk : k.InOrder) (r : Registry) (q : Query) : k.Agrees r (k.ask r q).2 := by
  rw [ask_touch]
  cases q with
  | method c s => exact agrees_findMethod hk r c s
  | constructor name args =>
    have hk' := hk.findConstructor r name args
    simp only [Query.touch, touch]
    rcases findConstructor_cases k r name args with e | ⟨d, -, -, e⟩ <;> rw [e] at hk' ⊢
    · exact .refl r k
    · exact agrees_of_get? hk hk' rfl fun _ _ => .inl rfl
  | map c | field c name | overloads c name | methodNames c | fieldNames c => exact agrees_mapOf hk r c

theorem Agrees.findMethod (h : k.Agrees r k') (c : ClassId) (s : Signature) :
    (k'.findMethod r c s).1 = (k.findMethod r c s).1 := by
  rw [findMethod_answer, findMethod_answer]
  have hc := h c
  generalize (k.mapOf r c).1 = m at hc
  generalize (k'.mapOf r c).1 = m' at hc
  cases hc with
  | none => rfl
  | some hm => simp only [answerOf, hm.lookup s, hm.className]

theorem Agrees.findField (h : k.Agrees r k') (c : ClassId) (name : String) :
    (k'.findField r c name).1 = (k.findField r c name).1 := by
  have hanswer : ∀ k : Introspector, (k.findField r c name).1 = (k.mapOf r c).1.bind (·.field? name) := fun _ => rfl
  rw [hanswer, hanswer]
  have hc := h c
  generalize (k.mapOf r c).1 = m at hc
  generalize (k'.mapOf r c).1 = m' at hc
  cases hc with
  | none => rfl
  | some hm => simp only [Option.bind_some, ClassMap.field?, hm.fields]

end Introspector

end MemberAccess
