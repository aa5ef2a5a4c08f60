import MemberAccess.Proofs.Introspection.Coherence

/-!
# Answers without a history

A memory is **coherent** when everything that it holds is what it would find again: what it says of a
class, of a signature and of a constructor is what a memory that has not been used would say.

* `Introspector.Coherent`, `coherent_new`, `coherent_touch`, `Coherent.apply`: this, and what keeps it.
* `mem_constructors_touch`: what a memory holds about constructors after a touch.
* `Coherent.answer`: the answer of a coherent memory is that of an unused one.
* `View.ask_eq_fresh`: the same for every history of queries, purges and changes of the registry.
-/

namespace MemberAccess

variable {P : Policy} {r r' : Registry} {k k' : Introspector}

/-- A query, purge or lookup that names registered classes only. A purge may name any. -/
def Touch.KnownTo (r : Registry) : Touch → Prop
  | map c => c.index < r.size
  | method c s => c.index < r.size ∧ s.KnownTo r
  | constructor _ args => ∀ v ∈ args, v.type.KnownTo r
  | purge _ => True
  | held _ s => s.KnownTo r

theorem Signature.knownTo_ofArgs {name : String} {args : List Value} (h : ∀ v ∈ args, v.type.KnownTo r) :
    (ofArgs name args).KnownTo r := by
  intro t ht
  obtain ⟨v, hv, rfl⟩ := List.mem_map.1 ht
  exact h v hv

/-- An array class has the name of a declared class. -/
def Registry.Overtaken (r : Registry) (name : String) : Prop :=
  ∃ c c' d d', r.class? c = some d ∧ r.class? c' = some d' ∧ d.isArray = true ∧ d'.isArray = false ∧
    d.qualifiedName = name ∧ d'.qualifiedName = name

namespace Introspector

/-- What is found about making an instance of a class when nothing is remembered. -/
def ranked (P : Policy) (r : Registry) (d : ClassDef) (s : Signature) : Lookup Constructor :=
  constructorLookup { policy := P } r d s

theorem ranked_growsTo (hp : r.Proper) (hc : r.Closed) (hr : r.GrowsTo r') {c : ClassId} {d : ClassDef}
    (hd : r.class? c = some d) {s : Signature} (hs : s.KnownTo r) : ranked P r' d s = ranked P r d s := by
  -- nothing is remembered, so this is a choice among the constructors that are shown
  have hunused : ∀ r, ranked P r d s = .ofChoice (fun x => r.describe "<init>" x.params)
      (choose r (·.params) s.params (shownConstructors { policy := P } d)) := fun _ => rfl
  rw [hunused, hunused]
  apply ofChoice_growsTo hp hc hr _ hs
  intro x hx
  exact hc.constructors hd x (List.mem_of_mem_filter hx)

/-- Everything in the memory is what would be found again. -/
structure Coherent (P : Policy) (r : Registry) (k : Introspector) : Prop where
  policy : k.policy = P
  inOrder : k.InOrder
  absent : ∀ {c}, Assoc.get? c k.maps = some none → c.index < r.size ∧
    (r.isAlive c = true → ClassMap.plain r P c = none)
  held : ∀ m ∈ k.held, m.Coherent P r
  constructors : ∀ e ∈ k.constructors, e.1.KnownTo r ∧
    ∃ c d, r.class? c = some d ∧ d.qualifiedName = e.1.name ∧ e.2 = ranked P r d e.1

theorem coherent_new (P : Policy) (r : Registry) : Coherent P r { policy := P } where
  policy := rfl
  inOrder := inOrder_new P
  absent h := by cases h
  held _ h := by cases h
  constructors _ h := by cases h

/-- The growth of a registry leaves a memory coherent. -/
theorem Coherent.growsTo (hp : r.Proper) (hc : r.Closed) (hr : r.GrowsTo r') (h : k.Coherent P r) :
    k.Coherent P r' where
  policy := h.policy
  inOrder := h.inOrder
  absent hget := by
    obtain ⟨hknown, hnone⟩ := h.absent hget
    refine ⟨Nat.lt_of_lt_of_le hknown hr.size_le, ?_⟩
    intro halive
    rw [ClassMap.plain_growsTo hp hr P hknown]
    exact hnone (hr.alive halive)
  held m hm := (h.held m hm).growsTo hp hc hr
  constructors e he := by
    obtain ⟨hs, c, d, hd, hname, hl⟩ := h.constructors e he
    refine ⟨hs.growsTo hr, c, d, hr.class?_some hd, hname, ?_⟩
    rw [ranked_growsTo hp hc hr hd hs]
    exact hl

theorem Coherent.kept (h : k.Coherent P r) {c : ClassId} {m : ClassMap}
    (hm : Assoc.get? c k.maps = some (some m)) : m.Coherent P r ∧ m.cls = c :=
  ⟨h.held m (mem_held_of_get? hm), h.inOrder.cls_eq hm⟩

theorem Coherent.purge (h : k.Coherent P r) (c : ClassId) : (k.purge r c).2.Coherent P r where
  policy := h.policy
  inOrder := h.inOrder.purge r c
  absent {c'} hget := by
    unfold Introspector.purge at hget
    simp only [Assoc.get?_erase] at hget
    split at hget
    · cases hget
    · exact h.absent hget
  held m hm := h.held m (mem_held_purge hm)
  constructors e he := h.constructors e (mem_constructors_purge he)

/-- Putting what is known about a class in its place. -/
theorem Coherent.put (h : k.Coherent P r) {c : ClassId} {m : Option ClassMap} {serials : Nat}
    (horder : InOrder { k with maps := Assoc.put c m k.maps, serials := serials })
    (hnone : m = none → c.index < r.size ∧ (r.isAlive c = true → ClassMap.plain r P c = none))
    (hsome : ∀ m' ∈ m, m'.Coherent P r) :
    Coherent P r { k with maps := Assoc.put c m k.maps, serials := serials } where
  policy := h.policy
  inOrder := horder
  absent {c'} hget := by
    simp only [Assoc.get?_put] at hget
    split at hget
    · rename_i hc
      subst hc
      exact hnone (Option.some.inj hget)
    · exact h.absent hget
  held m' hm' := (mem_held_put hm').elim (hsome m') (h.held m')
  constructors := h.constructors

/-- **The map of a class** is none when none would be made, and otherwise extends the one that would. -/
theorem Coherent.mapOf (hp : r.Proper) (hc : r.Closed) (h : k.Coherent P r) {c : ClassId}
    (hknown : c.index < r.size) : (k.mapOf r c).2.Coherent P r ∧
      Option.Rel (ClassMap.Extends r) (k.mapOf r c).1 (ClassMap.build r P c) := by
  have horder := h.inOrder.mapOf r c
  rcases mapOf_cases k r c with ⟨kept, hget, husable, e⟩ | ⟨m, hget, hdead, e⟩ | ⟨hget, e⟩ <;> rw [e] at horder ⊢
  · -- what is kept is used again: it was true when it was made, and nothing has changed it since
    refine ⟨h, ?_⟩
    rw [ClassMap.build_eq hp]
    cases kept with
    | none =>
      split
      · rename_i halive
        rw [(h.absent hget).2 halive]
        exact .none
      · exact .none
    | some m =>
      obtain ⟨hm, rfl⟩ := h.kept hget
      obtain ⟨b, hb, hext⟩ := hm.extends_plain
      have halive : r.isAlive m.cls = true := husable
      rw [if_pos halive, hb]
      exact .some hext
  · -- the class has been retired, and no map is made for it any more
    refine ⟨h.purge c, ?_⟩
    rw [(h.kept hget).2] at hdead
    rw [ClassMap.build_eq hp, if_neg (by rw [hdead]; exact Bool.false_ne_true)]
    exact .none
  · -- the class is asked for the first time
    have hmade : k.made r c = (ClassMap.build r P c).map ({ · with serial := k.serials }) := by
      unfold made
      rw [h.policy]
    rw [hmade] at horder ⊢
    cases hb : ClassMap.build r P c with
    | none =>
      rw [hb] at horder
      refine ⟨h.put horder (fun _ => ⟨hknown, ?_⟩) (fun m hm => by cases hm), .none⟩
      intro halive
      rw [ClassMap.build_eq hp, if_pos halive] at hb
      exact hb
    | some b =>
      rw [hb] at horder
      obtain ⟨hcoherent, hext⟩ := ClassMap.coherent_made hp hc hb k.serials
      exact ⟨h.put horder (fun hm => by cases hm) (fun m hm => by cases hm; exact hcoherent), .some hext⟩

theorem Coherent.findMethod (hp : r.Proper) (hc : r.Closed) (h : k.Coherent P r) {c : ClassId} {s : Signature}
    (hknown : c.index < r.size) (hs : s.KnownTo r) : (k.findMethod r c s).2.Coherent P r := by
  have horder := h.inOrder.findMethod r c s
  obtain ⟨hk, -⟩ := h.mapOf hp hc hknown
  rcases findMethod_cases k r c s with ⟨-, e⟩ | ⟨m, k', hmap, e⟩ <;> rw [e] at horder ⊢
  · exact hk
  · -- the map that answered is kept in the memory, so it is coherent like the rest
    rw [hmap] at hk
    have hm := (hk.kept (get?_mapOf hmap).1).1
    exact hk.put horder (fun hm => by cases hm) (fun m' hm' => by cases hm'; exact hm.remember hs)

/-- An array class has no constructors. -/
theorem ranked_of_isArray (hp : r.Proper) {c : ClassId} {d : ClassDef} (hd : r.class? c = some d)
    (harray : d.isArray = true) (s : Signature) : ranked P r d s = .miss := by
  have hshown : shownConstructors { policy := P } d = [] := by
    unfold shownConstructors
    rw [hp.bare hd harray]
    rfl
  have hunused : ranked P r d s = .ofChoice (fun x => r.describe "<init>" x.params)
      (choose r (·.params) s.params (shownConstructors { policy := P } d)) := rfl
  rw [hunused, hshown]
  rfl

theorem constructorLookup_of_unknown (hk : k.policy = P) {d : ClassDef} {s : Signature}
    (hnone : Assoc.get? s k.constructors = none) : k.constructorLookup r d s = ranked P r d s := by
  subst hk
  unfold ranked Introspector.constructorLookup
  rw [hnone]
  rfl

/-- What is ranked first is a constructor of the class and can be called. -/
theorem of_ranked_found {d : ClassDef} {s : Signature} {x : Constructor} (h : ranked P r d s = .found x) :
    x ∈ d.constructors ∧ (callCost r x.params s.params).isSome = true := by
  have hunused : ranked P r d s = .ofChoice (fun x => r.describe "<init>" x.params)
      (choose r (·.params) s.params (shownConstructors { policy := P } d)) := rfl
  rw [hunused] at h
  cases hchoice : choose r (·.params) s.params (shownConstructors { policy := P } d) with
  | one y =>
    rw [hchoice] at h
    cases h
    obtain ⟨hmem, hcost⟩ := of_choose_one hchoice
    exact ⟨List.mem_of_mem_filter hmem, hcost⟩
  | none | tie _ =>
    rw [hchoice] at h
    cases h

theorem constructors_mapOf {c : ClassId} {e : Signature × Lookup Constructor} (h : e ∈ (k.mapOf r c).2.constructors) :
    e ∈ k.constructors := by
  rcases mapOf_cases k r c with ⟨kept, -, -, heq⟩ | ⟨m, -, -, heq⟩ | ⟨-, heq⟩ <;> rw [heq] at h
  · exact h
  · exact mem_constructors_purge h
  · exact h

/-- **What is remembered about constructors after a touch** was remembered before, or has been ranked for a class
of that name of which instances can be made. -/
theorem mem_constructors_touch {t : Touch} {e : Signature × Lookup Constructor}
    (h : e ∈ (k.touch r t).constructors) :
    e ∈ k.constructors ∨ ∃ name args d, r.named? name = some d ∧ k.constructible r d = true ∧
      e = (.ofArgs name args, ranked k.policy r d (.ofArgs name args)) := by
  cases t with
  | map c => exact .inl (constructors_mapOf h)
  | method c s =>
    left
    apply constructors_mapOf (r := r) (c := c)
    simp only [touch] at h
    rcases findMethod_cases k r c s with ⟨-, heq⟩ | ⟨m, k', hmap, heq⟩ <;> rw [heq] at h
    · exact h
    · rw [hmap]
      exact h
  | constructor name args =>
    simp only [touch] at h
    rcases findConstructor_cases k r name args with heq | ⟨d, hd, hmake, heq⟩ <;> rw [heq] at h
    · exact .inl h
    · rcases Assoc.mem_put h with rfl | h
      · cases hget : Assoc.get? (Signature.ofArgs name args) k.constructors with
        | none => exact .inr ⟨name, args, d, hd, hmake, by rw [constructorLookup_of_unknown rfl hget]⟩
        | some known =>
          -- what is remembered is written once more
          left
          have hlookup : k.constructorLookup r d (.ofArgs name args) = known := by
            unfold constructorLookup
            rw [hget]
          rw [hlookup]
          exact Assoc.mem_of_get? hget
      · exact .inl h
  | purge c => exact .inl (mem_constructors_purge h)
  | held serial s =>
    left
    simp only [touch] at h
    split at h <;> exact h

/-- **Making an instance of a class** is known to be what would be found now, unless an array class has
taken over the name of the class. -/
theorem Coherent.constructorLookup (hp : r.Proper) (h : k.Coherent P r) {name : String} {d : ClassDef}
    (hd : r.named? name = some d) (hfree : ¬ r.Overtaken name) (args : List Value) :
    k.constructorLookup r d (.ofArgs name args) = ranked P r d (.ofArgs name args) := by
  cases hget : Assoc.get? (Signature.ofArgs name args) k.constructors with
  | none => exact constructorLookup_of_unknown h.policy hget
  | some l =>
    obtain ⟨-, c₀, d₀, hd₀, hname₀, hl⟩ := h.constructors _ (Assoc.mem_of_get? hget)
    obtain ⟨hname, c, hc⟩ := Registry.named?_some hd
    have hlookup : k.constructorLookup r d (.ofArgs name args) = l := by
      unfold Introspector.constructorLookup
      rw [hget]
    change l = ranked P r d₀ (.ofArgs name args) at hl
    rw [hlookup, hl]
    -- what is remembered is about a class of the same name: the very class, or arrays both of them
    cases harray₀ : d₀.isArray <;> cases harray : d.isArray
    · rw [hp.names hd₀ hc harray₀ harray (hname₀.trans hname.symm)]
    · exact absurd ⟨c, c₀, d, d₀, hc, hd₀, harray, harray₀, hname, hname₀⟩ hfree
    · exact absurd ⟨c₀, c, d₀, d, hd₀, hc, harray₀, harray, hname₀, hname⟩ hfree
    · rw [ranked_of_isArray hp hd₀ harray₀, ranked_of_isArray hp hc harray]

theorem Coherent.findConstructor (h : k.Coherent P r) {name : String} {args : List Value}
    (hargs : ∀ v ∈ args, v.type.KnownTo r) : (k.findConstructor r name args).2.Coherent P r := by
  have horder := h.inOrder.findConstructor r name args
  rcases findConstructor_cases k r name args with e | ⟨d, hd, -, e⟩ <;> rw [e] at horder ⊢
  · exact h
  · refine ⟨h.policy, horder, h.absent, h.held, ?_⟩
    intro entry hmem
    rcases Assoc.mem_put hmem with rfl | hmem
    · cases hget : Assoc.get? (Signature.ofArgs name args) k.constructors with
      | none =>
        obtain ⟨hname, c, hc⟩ := Registry.named?_some hd
        exact ⟨Signature.knownTo_ofArgs hargs, c, d, hc, hname, constructorLookup_of_unknown h.policy hget⟩
      | some l =>
        -- the entry is written once more as it was, whatever the name stands for by now
        have hlookup : k.constructorLookup r d (.ofArgs name args) = l := by
          unfold Introspector.constructorLookup
          rw [hget]
        simp only [hlookup]
        exact h.constructors _ (Assoc.mem_of_get? hget)
    · exact h.constructors entry hmem

theorem Coherent.findInHeld (h : k.Coherent P r) {m : ClassMap} (hm : m ∈ k.held) {s : Signature}
    (hs : s.KnownTo r) : (k.findInHeld r m s).2.Coherent P r where
  policy := h.policy
  inOrder := h.inOrder.findInHeld r hm s
  absent {c} hget := by
    have hmaps := Assoc.get?_map
      (Option.map fun n : ClassMap => if n.serial = m.serial then m.remember r s else n) c k.maps
    change Assoc.get? c (k.maps.map _) = _ at hget
    rw [hmaps] at hget
    obtain ⟨kept, hkept, hnone⟩ := Option.map_eq_some_iff.1 hget
    rw [Option.map_eq_none_iff.1 hnone] at hkept
    exact h.absent hkept
  held n hn := by
    rw [held_findInHeld] at hn
    obtain ⟨n', hn', rfl⟩ := List.mem_map.1 hn
    split
    · exact (h.held m hm).remember hs
    · exact h.held n' hn'
  constructors := h.constructors

/-- **A touch that names registered classes leaves a memory coherent.** -/
theorem coherent_touch (hp : r.Proper) (hc : r.Closed) (h : k.Coherent P r) {t : Touch} (ht : t.KnownTo r) :
    (k.touch r t).Coherent P r := by
  cases t with
  | map c => exact (h.mapOf hp hc ht).1
  | method c s => exact h.findMethod hp hc ht.1 ht.2
  | constructor name args => exact h.findConstructor ht
  | purge c => exact h.purge c
  | held serial s =>
    simp only [touch]
    split
    · rename_i m hm
      exact h.findInHeld (mem_held_of_held? hm).1 ht
    · exact h

/-! ## Answers -/

/-- **Two coherent memories have the same map of a class.** -/
theorem Coherent.mapOf_agrees (hp : r.Proper) (hc : r.Closed) (h : k.Coherent P r) (h' : k'.Coherent P r)
    {c : ClassId} (hknown : c.index < r.size) :
    Option.Rel (ClassMap.Agrees r) (k.mapOf r c).1 (k'.mapOf r c).1 := by
  obtain ⟨-, hm⟩ := h.mapOf hp hc hknown
  obtain ⟨-, hm'⟩ := h'.mapOf hp hc hknown
  -- both extend the map that would be made, or all three are none
  generalize (k.mapOf r c).1 = m at hm
  generalize (k'.mapOf r c).1 = n at hm'
  generalize ClassMap.build r P c = built at hm hm'
  cases hm with
  | none => cases hm'; exact .none
  | some hext => cases hm' with
    | some hext' => exact .some (hext.agrees hext')

/-- What is read off the map of a class, if that is the same for maps that agree. -/
theorem Coherent.mapOf_congr {γ : Type} (f : Option ClassMap → γ)
    (hf : ∀ {m n}, m.Agrees r n → f (some m) = f (some n)) (hp : r.Proper) (hc : r.Closed)
    (h : k.Coherent P r) (h' : k'.Coherent P r) {c : ClassId} (hknown : c.index < r.size) :
    f (k.mapOf r c).1 = f (k'.mapOf r c).1 := by
  have hm := h.mapOf_agrees hp hc h' hknown
  generalize (k.mapOf r c).1 = m at hm
  generalize (k'.mapOf r c).1 = n at hm
  cases hm with
  | none => rfl
  | some hagree => exact hf hagree

end Introspector

/-- Two answers that say the same. Maps may differ in what they have found so far. -/
def Answer.Same (r : Registry) : Answer → Answer → Prop
  | map m, map n => Option.Rel (ClassMap.Agrees r) m n
  | a, b => a = b

namespace Introspector

theorem Coherent.findConstructor_eq (hp : r.Proper) (h : k.Coherent P r) (h' : k'.Coherent P r) {name : String}
    (hfree : ¬ r.Overtaken name) (args : List Value) :
    (k.findConstructor r name args).1 = (k'.findConstructor r name args).1 := by
  unfold Introspector.findConstructor
  cases hd : r.named? name with
  | none => rfl
  | some d =>
    have hsame : k.constructible r d = k'.constructible r d := by
      unfold constructible
      rw [h.policy, h'.policy]
    simp only [hsame]
    split
    · simp only
      rw [h.constructorLookup hp hd hfree args, h'.constructorLookup hp hd hfree args]
    · rfl

/-- **Two coherent memories give the same answers.** -/
theorem Coherent.answer_same (hp : r.Proper) (hc : r.Closed) (h : k.Coherent P r) (h' : k'.Coherent P r)
    {q : Query} (hq : q.touch.KnownTo r)
    (hfree : ∀ name args, q = .constructor name args → ¬ r.Overtaken name) :
    (k.ask r q).1.Same r (k'.ask r q).1 := by
  cases q with
  | map c => exact h.mapOf_agrees hp hc h' hq
  | method c s =>
    suffices (k.findMethod r c s).1 = (k'.findMethod r c s).1 from congrArg Answer.method this
    rw [findMethod_answer, findMethod_answer]
    refine h.mapOf_congr (answerOf r s) ?_ hp hc h' hq.1
    intro m n hagree
    simp only [answerOf, hagree.lookup s, hagree.className]
  | field c name =>
    apply congrArg Answer.field
    refine h.mapOf_congr (·.bind (·.field? name)) ?_ hp hc h' hq
    intro m n hagree
    simp only [Option.bind_some, ClassMap.field?, hagree.fields]
  | overloads c name =>
    apply congrArg Answer.methods
    refine h.mapOf_congr (fun m => (m.map (·.overloads name)).getD []) ?_ hp hc h' hq
    intro m n hagree
    simp only [Option.map_some, Option.getD_some, ClassMap.overloads, hagree.admitted]
  | methodNames c =>
    apply congrArg Answer.names
    refine h.mapOf_congr (fun m => (m.map (·.methodNames)).getD []) ?_ hp hc h' hq
    intro m n hagree
    simp only [Option.map_some, Option.getD_some, ClassMap.methodNames, hagree.admitted]
  | fieldNames c =>
    apply congrArg Answer.names
    refine h.mapOf_congr (fun m => (m.map (·.fieldNames)).getD []) ?_ hp hc h' hq
    intro m n hagree
    simp only [Option.map_some, Option.getD_some, ClassMap.fieldNames, hagree.fields]
  | constructor name args =>
    exact congrArg Answer.constructor (h.findConstructor_eq hp h' (hfree name args rfl) args)

end Introspector

/-! ## Histories -/

/-- A registry, and the memory of one introspector over it. -/
structure View where
  registry : Registry
  memory : Introspector

namespace View

/-- What may happen to a view. -/
inductive Event where
  | change (c : Registry.Change)
  | ask (q : Query)
  | purge (c : ClassId)
  /-- a lookup in a map that someone holds, by its serial -/
  | lookUp (serial : Nat) (s : Signature)

/-- The core classes, and an introspector that has not been used. -/
def start (P : Policy) : View := ⟨.initial, { policy := P }⟩

def step (v : View) : Event → View
  | .change c => { v with registry := v.registry.apply c }
  | .ask q => { v with memory := (v.memory.ask v.registry q).2 }
  | .purge c => { v with memory := (v.memory.purge v.registry c).2 }
  | .lookUp serial s => { v with memory := v.memory.touch v.registry (.held serial s) }

def run (v : View) (es : List Event) : View := es.foldl step v

/-- An event that names only classes that the registry has handed out. -/
def Event.KnownTo (r : Registry) : Event → Prop
  | change c => c.KnownTo r
  | ask q => q.touch.KnownTo r
  | purge _ => True
  | lookUp _ s => s.KnownTo r

/-- A history in which every event names only classes that have been handed out before. -/
def Knowing (v : View) : List Event → Prop
  | [] => True
  | e :: rest => e.KnownTo v.registry ∧ (v.step e).Knowing rest

/-- A view over a registry that a host can make, with a coherent memory. -/
structure Coherent (P : Policy) (v : View) : Prop where
  proper : v.registry.Proper
  closed : v.registry.Closed
  memory : v.memory.Coherent P v.registry

theorem coherent_start (P : Policy) : (start P).Coherent P :=
  ⟨Registry.proper_initial, Registry.closed_initial, Introspector.coherent_new P _⟩

theorem Coherent.step {v : View} (h : v.Coherent P) {e : Event} (he : e.KnownTo v.registry) :
    (v.step e).Coherent P := by
  cases e with
  | change c =>
    have hgrows := Registry.growsTo_apply v.registry c
    exact ⟨Registry.proper_apply h.proper c, Registry.closed_apply h.closed he,
      h.memory.growsTo h.proper h.closed hgrows⟩
  | ask q =>
    refine ⟨h.proper, h.closed, ?_⟩
    simp only [View.step, Introspector.ask_touch]
    exact Introspector.coherent_touch h.proper h.closed h.memory he
  | purge c => exact ⟨h.proper, h.closed, h.memory.purge c⟩
  | lookUp serial s =>
    refine ⟨h.proper, h.closed, ?_⟩
    exact Introspector.coherent_touch (t := .held serial s) h.proper h.closed h.memory he

theorem Coherent.run {v : View} (h : v.Coherent P) {es : List Event} (hes : v.Knowing es) :
    (v.run es).Coherent P := by
  induction es generalizing v with
  | nil => exact h
  | cons e rest ih => exact ih (h.step hes.1) hes.2

/-- **Answers do not depend on the history**: after any history of queries, purges, lookups and changes of
the registry that names classes only once they have been handed out, an answer is the one that an unused
introspector with the same policy would give over the registry as it is. For a constructor, no array
class may have taken over the name of the class. -/
theorem ask_eq_fresh (P : Policy) {es : List Event} (hes : (start P).Knowing es) (q : Query) :
    let v := (start P).run es
    q.touch.KnownTo v.registry → (∀ name args, q = .constructor name args → ¬ v.registry.Overtaken name) →
      (v.memory.ask v.registry q).1.Same v.registry
        (({ policy := P } : Introspector).ask v.registry q).1 := by
  intro v hq hfree
  have hv := (coherent_start P).run hes
  exact hv.memory.answer_same hv.proper hv.closed (Introspector.coherent_new P _) hq hfree

/-- The root is made, an array class comes in, a text is asked about, booleans are retired, and the root is
made again. -/
theorem ask_eq_fresh_object :
    let es : List Event := [.ask (.constructor "kiln.lang.Object" []), .change (.arrayClass .string),
      .ask (.method .string (.ofArgs "length" [])), .change (.retire .boolean)]
    let v := (start .restricted).run es
    (v.memory.ask v.registry (.constructor "kiln.lang.Object" [])).1.Same v.registry
      (({ policy := .restricted } : Introspector).ask v.registry (.constructor "kiln.lang.Object" [])).1 := by
  refine ask_eq_fresh .restricted ?_ (.constructor "kiln.lang.Object" []) ?_ ?_
  · refine ⟨fun v hv => (by cases hv), ?_, ⟨?_, fun t ht => (by cases ht)⟩, trivial, trivial⟩
    · exact fun c hc => by cases hc; decide +kernel
    · decide +kernel
  · exact fun v hv => by cases hv
  · rintro name args h ⟨c, -, d, -, hd, -, harray, -, hname, -⟩
    cases h
    have hnames : ∀ d ∈ ((start .restricted).run [.ask (.constructor "kiln.lang.Object" []),
        .change (.arrayClass .string), .ask (.method .string (.ofArgs "length" [])),
        .change (.retire .boolean)]).registry.classes,
        d.isArray = true → d.qualifiedName ≠ "kiln.lang.Object" := by decide +kernel
    exact hnames d (Registry.mem_classes_iff.2 ⟨c, hd⟩) harray hname

end View

end MemberAccess
