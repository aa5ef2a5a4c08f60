import MemberAccess.Proofs.Binding.Container
import MemberAccess.Proofs.Evaluation

/-!
# Containers read back what was written

What is written to a hash map, an array list or an array in brackets is what brackets read there afterwards, and they
read everything else as before. Keys of maps are told apart by the equality of values; those of lists and arrays by
the index that they stand for, so that two keys may lead to one element.

* `World.read`, `World.write`: fresh accesses in brackets.
* `Ready.read_map`, `Ready.write_map`, `Ready.read_sequence`, `Ready.write_sequence`: what they do.
* `MapLaws`, `SequenceLaws`: what is read after a write.
* `View.reads_back`: these hold after every history.
-/

namespace MemberAccess

variable {r : Registry} {w : World} {o : ObjectRef} {entries : List (Value × Value)} {q : Sequence}
  {items : List Value} {key v : Value} {i : Int32}

/-- What a fresh reading in brackets answers. -/
def World.read (w : World) (r : Registry) (target key : Value) : Except AccessError (Option Value) :=
  ((w.engine.reading r .bracket target key).fresh w).1.map (·.map (·.2))

/-- What a fresh writing in brackets answers, and the world afterwards. -/
def World.write (w : World) (r : Registry) (target key v : Value) : Except AccessError (Option Value) × World :=
  let (answer, after) := (w.engine.writing r .bracket target key v).fresh w
  (answer.map (·.map (·.2)), after)

/-- **A fresh access that finds a binding** uses it. -/
theorem Plan.fresh_of_found {β : Type} {p : Plan β} {b : β} {k : Introspector}
    (h : p.find w.engine.introspector = (.ok (some b), k)) :
    (p.fresh w).1.map (·.map (·.2)) = (((p.access b).host w.heap).1.mapError (p.access b).error).map some ∧
      (p.fresh w).2 = { w.remember k with heap := ((p.access b).host w.heap).2 } := by
  have hfound : p.found w = .ok (some b) := by
    unfold Plan.found
    rw [h]
  have hsearched : p.searched w = w.remember k := by
    unfold Plan.searched
    rw [h]
  rcases p.fresh_cases w with ⟨a, hb, -⟩ | ⟨hb, -⟩ | ⟨b', hb, e⟩ <;> rw [hfound] at hb
  · cases hb
  · cases hb
  · cases hb
    rw [e, hsearched]
    unfold Plan.invoke
    rw [Access.run_apply]
    cases ((p.access b).host w.heap).1 <;> exact ⟨rfl, rfl⟩

namespace Ready

variable (h : Ready r w.engine.introspector)

include h

/-! ## Maps -/

/-- **Reading a map** answers the value at the key, or null. -/
theorem read_map (ho : o.cls = .hashMap) (hstate : w.heap.state o = .map entries) (hkey : key.type.KnownTo r) :
    w.read r (.object o) key = .ok (some ((Assoc.get? key entries).getD .null)) := by
  obtain ⟨x, k, hfind, -, hbody⟩ := h.findReader_map w.engine.strategy ho hkey
  have hplan : (w.engine.reading r .bracket (.object o) key).find w.engine.introspector =
      (.ok (some ⟨o.cls, .map x key⟩), k) := hfind
  have haccess : (w.engine.reading r .bracket (.object o) key).access ⟨o.cls, .map x key⟩ =
      .call x (.object o) [key] := rfl
  have hhost : (Access.call x (.object o) [key]).host = x.invoke (.object o) [key] := rfl
  unfold World.read
  rw [(Plan.fresh_of_found hplan).1, haccess, hhost, hbody, Containers.mapGet_apply hstate]
  rfl

/-- **Writing a map** enters the value at the key, and answers it. -/
theorem write_map (ho : o.cls = .hashMap) (hstate : w.heap.state o = .map entries) (hkey : key.type.KnownTo r)
    (hv : v.type.KnownTo r) : ∃ k, Ready r k ∧ w.write r (.object o) key v =
      (.ok (some v), { w.remember k with heap := w.heap.setState o (.map (Assoc.put key v entries)) }) := by
  obtain ⟨x, k, hfind, hready, -, hbody⟩ := h.findWriter_map w.engine.strategy ho hkey hv
  have hplan : (w.engine.writing r .bracket (.object o) key v).find w.engine.introspector =
      (.ok (some ⟨o.cls, .map x key⟩), k) := hfind
  have haccess : (w.engine.writing r .bracket (.object o) key v).access ⟨o.cls, .map x key⟩ =
      .store x (.object o) [key, v] v := rfl
  have hhost : (Access.store x (.object o) [key, v] v).host w.heap =
      (.ok v, w.heap.setState o (.map (Assoc.put key v entries))) := by
    have hdo : (Access.store x (.object o) [key, v] v).host =
        (do let _ ← x.invoke (.object o) [key, v]; pure v) := rfl
    rw [hdo, hbody, bind_apply, Containers.mapPut_apply hstate]
    rfl
  obtain ⟨hanswer, hworld⟩ := Plan.fresh_of_found hplan
  rw [haccess, hhost] at hanswer hworld
  refine ⟨k, hready, Prod.ext hanswer hworld⟩

/-! ## Lists and arrays -/

/-- **Reading at an index** answers the element there. -/
theorem read_sequence (hq : q.In r) (hitems : q.items? w.heap = some items) (hi : key.toIndex? = some i) :
    w.read r q.value key = match checkIndex i items.length with
      | .ok n => .ok (some (items[n]?.getD .null))
      | .error f => .error (.failed q.reads f) := by
  obtain ⟨x, k, hfind, -, hname, hbody⟩ := h.findReader_sequence w.engine.strategy hq hi
  have hplan : (w.engine.reading r .bracket q.value key).find w.engine.introspector =
      (.ok (some ⟨q.value.cls, .list (q.source x) i⟩), k) := hfind
  have haccess : (w.engine.reading r .bracket q.value key).access ⟨q.value.cls, .list (q.source x) i⟩ =
      (ReadRoute.list (q.source x) i).access q.value := rfl
  have hhost := Sequence.readsAt hitems hbody
  unfold Host.ReadsAt at hhost
  have hmember : ((ReadRoute.list (q.source x) i).access q.value).member = q.reads := by
    cases q with
    | list o => exact hname
    | array a => rfl
  unfold World.read
  rw [(Plan.fresh_of_found hplan).1, haccess, hhost]
  cases checkIndex i items.length with
  | ok n => rfl
  | error f => simp only [Except.mapError, Except.map, Access.error, hmember]

/-- **Writing at an index** replaces the element there and answers the value. If it fails, it has changed nothing. -/
theorem write_sequence (hq : q.In r) (hitems : q.items? w.heap = some items) (hi : key.toIndex? = some i)
    (hv : v.type.KnownTo r) : ∃ k, Ready r k ∧ w.write r q.value key v =
      match q.accepts v, checkIndex i items.length with
      | .ok _, .ok n => (.ok (some v), { w.remember k with heap := q.replace w.heap (items.set n v) })
      | .ok _, .error f => (.error (.failed q.writes f), w.remember k)
      | .error f, _ => (.error (.failed q.writes f), w.remember k) := by
  obtain ⟨x, k, hfind, hready, hname, hbody⟩ := h.findWriter_sequence w.engine.strategy hq hi hv
  have hplan : (w.engine.writing r .bracket q.value key v).find w.engine.introspector =
      (.ok (some ⟨q.value.cls, .list (q.source x) i⟩), k) := hfind
  have haccess : (w.engine.writing r .bracket q.value key v).access ⟨q.value.cls, .list (q.source x) i⟩ =
      (WriteRoute.list (q.source x) i).access q.value v := rfl
  have hhost := Sequence.writesAt hitems hbody
  unfold Host.WritesAt at hhost
  have hmember : ((WriteRoute.list (q.source x) i).access q.value v).member = q.writes := by
    cases q with
    | list o => exact hname
    | array a => rfl
  obtain ⟨hanswer, hworld⟩ := Plan.fresh_of_found hplan
  rw [haccess, hhost] at hanswer hworld
  refine ⟨k, hready, Prod.ext (hanswer.trans ?_) (hworld.trans ?_)⟩ <;>
    cases q.accepts v <;> cases checkIndex i items.length <;>
    simp only [Except.mapError, Except.map, Access.error, hmember] <;> rfl

end Ready

/-! ## What is read after a write -/

/-- Whether a value may be an element: a primitive array takes its own kind, everything else any value. -/
def Sequence.Takes (v : Value) : Sequence → Prop
  | list _ => True
  | array a => ∀ p, a.component = .primitive p → v.primitive? = some p

theorem Sequence.accepts_of_takes (h : q.Takes v) : q.accepts v = .ok () := by
  cases q with
  | list o => rfl
  | array a => exact ArrayRef.accepts_iff.2 h

theorem Sequence.refuses_of_not_takes (h : ¬q.Takes v) : ∃ f, q.accepts v = .error f := by
  cases haccepts : q.accepts v with
  | error f => exact ⟨f, rfl⟩
  | ok =>
    refine absurd ?_ h
    cases q with
    | list o => trivial
    | array a => exact ArrayRef.accepts_iff.1 haccepts

/-- What has been put in the place of elements is there. -/
theorem Sequence.items?_replace {heap : Heap} {n : Nat} (hitems : q.items? heap = some items) (hn : n < items.length)
    (items' : List Value) : q.items? (q.replace heap items') = some items' := by
  cases q with
  | list o =>
    have hstate : heap.state o = .list items := items?_list hitems
    have hthere : o.address < heap.objects.length := Heap.address_lt_of_state (by rw [hstate]; simp)
    have hafter : (heap.setState o (.list items')).state o = .list items' := Heap.state_setState hthere _
    simp only [replace, items?, hafter]
  | array a =>
    cases hitems
    have hthere : a.address < heap.arrays.length := Heap.address_lt_of_elements hn
    simp only [replace, items?, Heap.elements_setElements hthere]

/-- What holds of a write to a map, and of the reads after it. -/
structure MapLaws (w : World) (r : Registry) (o : ObjectRef) (entries : List (Value × Value)) (key v : Value) :
    Prop where
  answers : (w.write r (.object o) key v).1 = .ok (some v)
  /-- nothing but the state of the map has changed -/
  heap : (w.write r (.object o) key v).2.heap = w.heap.setState o (.map (Assoc.put key v entries))
  same : (w.write r (.object o) key v).2.read r (.object o) key = .ok (some v)
  /-- at another key there is what was there, or null -/
  other : ∀ key', key'.type.KnownTo r → key' ≠ key →
    w.read r (.object o) key' = .ok (some ((Assoc.get? key' entries).getD .null)) ∧
    (w.write r (.object o) key v).2.read r (.object o) key' = w.read r (.object o) key'

/-- What holds of a write to a list or an array at the index of a key, and of the reads before and after it. -/
structure SequenceLaws (w : World) (r : Registry) (q : Sequence) (items : List Value) (key : Value) (i : Int32)
    (v : Value) : Prop where
  reads : ∀ n : Nat, i.toInt = n → ∀ hn : n < items.length, w.read r q.value key = .ok (some items[n])
  /-- nothing but the element at the index has changed -/
  writes : ∀ n : Nat, i.toInt = n → n < items.length → q.Takes v →
    (w.write r q.value key v).1 = .ok (some v) ∧
    (w.write r q.value key v).2.heap = q.replace w.heap (items.set n v) ∧
    (∀ key', key'.toIndex? = some i → (w.write r q.value key v).2.read r q.value key' = .ok (some v)) ∧
    (∀ key' j, key'.toIndex? = some j → j ≠ i →
      (w.write r q.value key v).2.read r q.value key' = w.read r q.value key')
  refuses : ¬q.Takes v → (∃ f, (w.write r q.value key v).1 = .error (.failed q.writes f)) ∧
    (w.write r q.value key v).2.heap = w.heap
  outside : ¬(0 ≤ i.toInt ∧ i.toInt.toNat < items.length) →
    w.read r q.value key = .error (.failed q.reads (.indexOutOfBounds i.toInt items.length)) ∧
    (∃ f, (w.write r q.value key v).1 = .error (.failed q.writes f)) ∧
    (w.write r q.value key v).2.heap = w.heap

namespace Ready

variable (h : Ready r w.engine.introspector)

include h

theorem mapLaws (ho : o.cls = .hashMap) (hstate : w.heap.state o = .map entries) (hkey : key.type.KnownTo r)
    (hv : v.type.KnownTo r) : MapLaws w r o entries key v := by
  obtain ⟨k, hready, hwrite⟩ := h.write_map ho hstate hkey hv
  have hthere : o.address < w.heap.objects.length := Heap.address_lt_of_state (by rw [hstate]; simp)
  -- the map after the write, and a read of it
  let after : World := { w.remember k with heap := w.heap.setState o (.map (Assoc.put key v entries)) }
  have hafter : after.heap.state o = .map (Assoc.put key v entries) := Heap.state_setState hthere _
  have hread : ∀ key', key'.type.KnownTo r →
      after.read r (.object o) key' = .ok (some ((Assoc.get? key' (Assoc.put key v entries)).getD .null)) := by
    intro key' hkey'
    exact read_map (w := after) hready ho hafter hkey'
  refine ⟨by rw [hwrite], by rw [hwrite], ?_, ?_⟩
  · rw [hwrite]
    refine (hread key hkey).trans ?_
    rw [Assoc.get?_put, if_pos rfl]
    rfl
  · intro key' hkey' hne
    have hbefore := h.read_map ho hstate hkey'
    refine ⟨hbefore, ?_⟩
    rw [hwrite, hbefore]
    refine (hread key' hkey').trans ?_
    rw [Assoc.get?_put, if_neg (Ne.symm hne)]

theorem sequenceLaws (hq : q.In r) (hitems : q.items? w.heap = some items) (hi : key.toIndex? = some i)
    (hv : v.type.KnownTo r) : SequenceLaws w r q items key i v := by
  obtain ⟨k, hready, hwrite⟩ := h.write_sequence hq hitems hi hv
  have hread := h.read_sequence hq hitems hi
  have hindex : ∀ n : Nat, i.toInt = n → n < items.length → checkIndex i items.length = .ok n := by
    intro n hn hlt
    unfold checkIndex
    rw [hn]
    simp [hlt]
  constructor
  · intro n hn hlt
    rw [hread, hindex n hn hlt]
    simp [hlt]
  · intro n hn hlt htakes
    rw [Sequence.accepts_of_takes htakes, hindex n hn hlt] at hwrite
    simp only at hwrite
    -- the elements after the write, and a read of them
    let after : World := { w.remember k with heap := q.replace w.heap (items.set n v) }
    have hafter : q.items? after.heap = some (items.set n v) := Sequence.items?_replace hitems hlt _
    have hreadAfter : ∀ {key' j}, key'.toIndex? = some j → after.read r q.value key' =
        match checkIndex j (items.set n v).length with
        | .ok m => .ok (some ((items.set n v)[m]?.getD .null))
        | .error f => .error (.failed q.reads f) := by
      intro key' j hj
      exact read_sequence (w := after) hready hq hafter hj
    rw [hwrite]
    refine ⟨rfl, rfl, ?_, ?_⟩
    · intro key' hkey'
      refine (hreadAfter hkey').trans ?_
      rw [List.length_set, hindex n hn hlt]
      simp [hlt]
    · intro key' j hj hne
      refine (hreadAfter hj).trans ?_
      rw [h.read_sequence hq hitems hj, List.length_set]
      rcases checkIndex_cases j items.length with ⟨hpos, -, e⟩ | ⟨-, e⟩ <;> rw [e]
      -- the two indices are not negative, so they lead to two elements
      have hother : n ≠ j.toInt.toNat := by
        intro heq
        have hsame : i.toInt = j.toInt := by omega
        exact hne (Int32.toInt_inj.1 hsame).symm
      simp only
      rw [List.getElem?_set_ne hother]
  · intro hrefuses
    obtain ⟨f, hf⟩ := Sequence.refuses_of_not_takes hrefuses
    rw [hf] at hwrite
    simp only at hwrite
    rw [hwrite]
    exact ⟨⟨f, rfl⟩, rfl⟩
  · intro houtside
    have herror : checkIndex i items.length = .error (.indexOutOfBounds i.toInt items.length) := by
      unfold checkIndex
      rw [if_neg houtside]
    rw [herror] at hwrite hread
    refine ⟨hread, ?_⟩
    rw [hwrite]
    cases q.accepts v <;> exact ⟨⟨_, rfl⟩, rfl⟩

end Ready

/-! ## After every history -/

namespace View

theorem registry_run (view : View) (es : List Event) :
    ∃ changes, (view.run es).registry = view.registry.applyAll changes := by
  induction es generalizing view with
  | nil => exact ⟨[], rfl⟩
  | cons e rest ih =>
    obtain ⟨others, hothers⟩ := ih (view.step e)
    have hfirst : ∃ changes, (view.step e).registry = view.registry.applyAll changes := by
      cases e with
      | change c => exact ⟨[c], rfl⟩
      | ask | purge | lookUp => exact ⟨[], rfl⟩
    obtain ⟨first, hfirst⟩ := hfirst
    refine ⟨first ++ others, ?_⟩
    rw [Registry.applyAll, List.foldl_append]
    change ((view.step e).run rest).registry = (view.registry.applyAll first).applyAll others
    rw [hothers, hfirst]

theorem ready_run {es : List Event} (hes : (start .unrestricted).Knowing es)
    (hcore : ∀ c : ClassId, c.isCore = true → ((start .unrestricted).run es).registry.isAlive c = true) :
    Ready ((start .unrestricted).run es).registry ((start .unrestricted).run es).memory := by
  have hcoherent := (coherent_start .unrestricted).run hes
  obtain ⟨changes, hregistry⟩ := (start .unrestricted).registry_run es
  refine ⟨hcoherent.proper, hcoherent.closed, ?_, ?_, hcore, hcoherent.memory⟩
  · rw [hregistry]
    exact Registry.growsTo_applyAll _ changes
  · rw [hregistry]
    exact Registry.made_applyAll Registry.made_initial changes

/-- **Containers read back what was written**, under the unrestricted policy and either strategy, after any history of
queries, purges, lookups and changes of the registry that names classes only once they have been handed out, as long
as no core class is retired, and on any heap. Keys and values are null or of registered classes. -/
theorem reads_back (σ : Strategy) {es : List Event} (hes : (start .unrestricted).Knowing es)
    (hcore : ∀ c : ClassId, c.isCore = true → ((start .unrestricted).run es).registry.isAlive c = true) (heap : Heap) :
    let view := (start .unrestricted).run es
    let w : World := ⟨⟨view.memory, σ⟩, heap⟩
    (∀ o entries key v, o.cls = .hashMap → heap.state o = .map entries → key.type.KnownTo view.registry →
      v.type.KnownTo view.registry → MapLaws w view.registry o entries key v) ∧
    (∀ q items key i v, q.In view.registry → q.items? heap = some items → key.toIndex? = some i →
      v.type.KnownTo view.registry → SequenceLaws w view.registry q items key i v) := by
  intro view w
  have hready : Ready view.registry w.engine.introspector := ready_run hes hcore
  refine ⟨?_, ?_⟩
  · intro o entries key v ho hstate hkey hv
    exact hready.mapLaws ho hstate hkey hv
  · intro q items key i v hq hitems hi hv
    exact hready.sequenceLaws hq hitems hi hv

/-- A map and an array of ints, under the strategy for maps: an int key and the long of the same number are two keys
of the map, and one index of the array. -/
theorem reads_back_box :
    let es : List Event := [.change (.arrayClass .int), .ask (.method .hashMap (.ofArgs "put" [.null, .null]))]
    let view := (start .unrestricted).run es
    let w : World := ⟨⟨view.memory, .map⟩, { arrays := [[.int 4, .int 5]], objects := [.map []] }⟩
    let box : Value := .object ⟨0, .hashMap⟩
    let ints : Value := .array ⟨0, ⟨19⟩, .int⟩
    let boxed := w.write view.registry box (.int 1) (.string "x")
    let written := w.write view.registry ints (.int 1) (.int 6)
    (boxed.1 = .ok (some (.string "x")) ∧ boxed.2.read view.registry box (.int 1) = .ok (some (.string "x")) ∧
      boxed.2.read view.registry box (.long 1) = .ok (some .null)) ∧
    written.1 = .ok (some (.int 6)) ∧ written.2.read view.registry ints (.long 1) = .ok (some (.int 6)) := by
  intro es view w box ints boxed written
  have hint : Ty.KnownTo Registry.initial .int := by decide
  have hes : (start .unrestricted).Knowing es := by
    refine ⟨hint, ⟨by decide +kernel, ?_⟩, trivial⟩
    intro t ht c hc
    obtain rfl : t = .null := by simpa [Signature.ofArgs, Value.type] using ht
    cases hc
  have hgrown : Registry.initial.GrowsTo view.registry := Registry.growsTo_apply _ (.arrayClass .int)
  have hknown : ∀ v : Value, v.cls.isCore = true → v.type.KnownTo view.registry := by
    intro v hv c hc
    have hcls : c = v.cls := by
      cases v with
      | null => cases hc
      | _ => exact (Option.some.inj hc).symm
    rw [hcls]
    exact Nat.lt_of_lt_of_le (ClassId.index_lt_of_isCore hv) hgrown.size_le
  obtain ⟨hmap, hsequence⟩ := reads_back .map hes (fun _ _ => rfl) w.heap
  have hbox := hmap ⟨0, .hashMap⟩ [] (.int 1) (.string "x") rfl rfl (hknown _ rfl) (hknown _ rfl)
  have harray : view.registry.isArray ⟨19⟩ = true := by decide +kernel
  have hints := hsequence (.array ⟨0, ⟨19⟩, .int⟩) _ (.int 1) 1 (.int 6) harray rfl rfl (hknown _ rfl)
  obtain ⟨hbefore, hother⟩ := hbox.other (.long 1) (hknown _ rfl) (by simp)
  obtain ⟨hanswer, -, hsame, -⟩ := hints.writes 1 rfl (by decide) (fun p hp => by cases hp; rfl)
  exact ⟨⟨hbox.answers, hbox.same, hother.trans hbefore⟩, hanswer, hsame (.long 1) rfl⟩

end View

end MemberAccess
