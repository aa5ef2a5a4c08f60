import MemberAccess.Proofs.Fields
import MemberAccess.Proofs.Session.Rejection

/-!
# Constants and final fields

A read of a constant may be folded, and a final field stays as it is. For both an engine goes by the flags of the
field; the flags keep what they promise, so whatever an engine finds can be relied on.

* `Session.FindsReader`, `Session.FindsWriter`: what an engine finds in a session, in some order of the families or by
  one of them.
* `Reader.folds`: a reader of a constant gives one value, for all targets and on all heaps.
* `Session.constants_fold`: the readers and writers that are found in a run, and the fields of its classes.
-/

namespace MemberAccess

/-- **A reader of a constant gives one value**: using it and trying it do nothing else. -/
theorem Reader.folds {b : Reader} (h : b.isConstant = true) : ∃ f v, b.route = .field f ∧
    (∀ target, f.get target = pure v) ∧ ∀ target heap, b.invoke target heap = (.ok v, heap) ∧
      ∀ key, b.tryInvoke target key heap = (.ok (.done v), heap) ∨
        b.tryInvoke target key heap = (.ok .stale, heap) := by
  obtain ⟨c, route⟩ := b
  cases route with
  | map | list | getter | flag | duck => cases h
  | field f =>
    obtain ⟨v, hread⟩ := f.promised.constant h
    have hget : ∀ target, f.get target = pure v := hread
    have hhost : ∀ target heap, (Access.readField f target).host heap = (.ok v, heap) := by
      intro target heap
      simp only [Access.host, hget]
      rfl
    refine ⟨f, v, rfl, hget, fun target heap => ⟨?_, fun key => ?_⟩⟩
    · simp only [invoke, access, ReadRoute.access, Access.run_apply, hhost]
      rfl
    · unfold tryInvoke
      cases ha : replay? ⟨c, .field f⟩ target key with
      | none => exact .inr rfl
      | some a =>
        have haccess : a = .readField f target := by
          simp only [replay?, ReadRoute.replay?, ReadRoute.access] at ha
          split at ha
          · split at ha
            · exact (Option.some.inj ha).symm
            · cases ha
          · cases ha
        refine .inl ?_
        simp only [haccess, attemptIf, Access.attempt, hhost]

namespace Session

/-- What an engine finds for reading: in some order of the families, or by one of them on a class. -/
inductive FindsReader (s : Session) (i : Nat) (b : Reader) : Prop
  | ordered (order : SearchOrder) (target key : Value)
      (h : ((Discovery.read order target key).search (s.engines i) s.registry (s.memory i)).1 = .ok (some (.reader b)))
  | family (c : ClassId) (key : Value) (family : ReadFamily)
      (h : (Reader.search s.registry c key family (s.memory i)).1 = .ok (some b))

/-- What an engine finds for writing. -/
inductive FindsWriter (s : Session) (i : Nat) (b : Writer) : Prop
  | ordered (order : SearchOrder) (target key v : Value)
      (h : ((Discovery.write order target key v).search (s.engines i) s.registry (s.memory i)).1 =
        .ok (some (.writer b)))
  | family (c : ClassId) (key v : Value) (family : WriteFamily)
      (h : (Writer.search s.registry c key v family (s.memory i)).1 = .ok (some b))

variable {s : Session} {i : Nat} {I : Introspector → Prop}

theorem FindsReader.found {b : Reader} (h : s.FindsReader i b) (hI : Introspector.KeptByQueries s.registry I)
    (hk : I (s.memory i)) : ∃ key, b.route.Found I s.registry b.cls key := by
  cases h with
  | ordered order target key h =>
    obtain ⟨b', hb, heq⟩ := Search.found_of_map h
    cases heq
    obtain ⟨⟨hcls, hroute⟩, -⟩ := (Resolver.found_firstReader hI _ target key (s.memory i) hk).2.1 _ hb b rfl
    exact ⟨key, hcls ▸ hroute⟩
  | family c key family h =>
    obtain ⟨-, hcls, hroute⟩ := (Reader.found_search hI key family (s.memory i) hk).2.1 _ h b rfl
    exact ⟨key, hcls ▸ hroute⟩

theorem FindsWriter.found {b : Writer} (h : s.FindsWriter i b) (hI : Introspector.KeptByQueries s.registry I)
    (hk : I (s.memory i)) : ∃ key v, b.route.Found I s.registry b.cls key v := by
  cases h with
  | ordered order target key v h =>
    obtain ⟨b', hb, heq⟩ := Search.found_of_map h
    cases heq
    obtain ⟨⟨hcls, hroute⟩, -⟩ := (Resolver.found_firstWriter hI _ target key v (s.memory i) hk).2.1 _ hb b rfl
    exact ⟨key, v, hcls ▸ hroute⟩
  | family c key v family h =>
    obtain ⟨hcls, hroute⟩ := (Writer.found_search hI key v family (s.memory i) hk).2.1 _ h b rfl
    exact ⟨key, v, hcls ▸ hroute⟩

/-- **No final field is ever found for writing.** -/
theorem FindsWriter.isFinal_eq_false {b : Writer} (h : s.FindsWriter i b) {f : Field} (hf : b.route = .field f) :
    f.isFinal = false := by
  obtain ⟨key, v, hroute⟩ := h.found (Introspector.keptByQueries_true s.registry) trivial
  rw [hf] at hroute
  cases hroute with
  | field _ _ hfinal => exact hfinal

/-- A field that is found for reading is declared by the class that the reader serves. -/
theorem FindsReader.declared {b : Reader} (h : s.FindsReader i b) (horder : (s.memory i).InOrder)
    (hgrounded : (s.memory i).Grounded s.registry) {f : Field} (hf : b.route = .field f) :
    ∃ d, s.registry.class? b.cls = some d ∧ f ∈ d.fields := by
  obtain ⟨key, hroute⟩ := h.found (Introspector.keptByQueries_grounded s.registry) ⟨horder, hgrounded⟩
  rw [hf] at hroute
  cases hroute with
  | field _ hfield =>
    obtain ⟨k, ⟨horder', hk⟩, hanswer⟩ := hfield
    exact hk.findField horder' hanswer

/-- The fields of a registered class are those of the calls that it has been built from. -/
theorem code_ofDecl (c : ClassId) {d : ClassDecl} (hd : d.fields = []) (calls : List ClassDecl.Call) :
    (ClassDef.ofDecl c (d.build calls)).fields.map (·.code) = calls.filterMap (·.code?) := by
  have hbuilt := d.code_build calls
  rw [hd, List.map_nil, List.nil_append] at hbuilt
  rw [← hbuilt]
  -- a field is registered with its place and is otherwise as it was declared
  refine List.ext_getElem? fun n => ?_
  simp only [ClassDef.ofDecl, List.getElem?_map, List.getElem?_mapIdx, Option.map_map]
  rfl

/-- **Constants fold, and final fields stay as they are**, in any run. A reader that is found and calls itself constant
goes through a field of its class that holds one value: using the reader and, where it applies, trying it give that
value, for every target and on every heap, and do nothing else. No writer that is found goes through a final field.
Writing a final field of a registered class is refused, and no code of the host runs. The flags and the code of the
fields of a class that has been built from calls are those of the calls. -/
theorem constants_fold (policy : Nat → Policy) (strategy : Nat → Strategy) (heap : Heap) (es : List Event) (i : Nat) :
    let s := (start policy strategy heap).run es
    (∀ b, s.FindsReader i b → b.isConstant = true → ∃ d f v, s.registry.class? b.cls = some d ∧ f ∈ d.fields ∧
      b.route = .field f ∧ (∀ target, f.get target = pure v) ∧ ∀ target h, b.invoke target h = (.ok v, h) ∧
        ∀ key, b.tryInvoke target key h = (.ok (.done v), h) ∨ b.tryInvoke target key h = (.ok .stale, h)) ∧
    (∀ b, s.FindsWriter i b → ∀ f, b.route = .field f → f.isFinal = false) ∧
    (∀ c d f, s.registry.class? c = some d → f ∈ d.fields → f.isFinal = true → ∀ target v,
      f.set target v = Host.fail (.illegalAccess ("field '" ++ f.name ++ "' is final"))) ∧
    ∀ (c : ClassId) (d : ClassDecl) (calls : List ClassDecl.Call), d.fields = [] →
      (ClassDef.ofDecl c (d.build calls)).fields.map (·.code) = calls.filterMap (·.code?) := by
  intro s
  obtain ⟨-, -, hgrounded⟩ := grounded_run policy strategy heap es i
  have horder : (s.memory i).InOrder :=
    invariant_inOrder.run (s := start policy strategy heap) (Introspector.inOrder_new (policy i)) es
  refine ⟨fun b hfinds hconstant => ?_, fun b hfinds f hf => hfinds.isFinal_eq_false hf, ?_, ?_⟩
  · obtain ⟨f, v, hf, hget, huses⟩ := Reader.folds hconstant
    obtain ⟨d, hd, hmem⟩ := hfinds.declared horder hgrounded hf
    exact ⟨d, f, v, hd, hmem, hf, hget, huses⟩
  · intro c d f _ _ hfinal target v
    rw [← f.write_code]
    exact f.promised.write_eq hfinal target v
  · exact fun c d calls hd => code_ofDecl c hd calls

/-- The reader that is found for the limit gives it whatever it is used on. -/
theorem constants_fold_limits :
    limited.FindsReader 0 maxReader ∧ maxReader.isConstant = true ∧
      ∀ target h, maxReader.invoke target h = (.ok (.int 7), h) := by
  have hfinds : limited.FindsReader 0 maxReader := .ordered (.resolvers [.field]) someLimits (.string "MAX") rfl
  obtain ⟨hfold, -⟩ := constants_fold (fun _ => .unrestricted) (fun _ => .pojo) {} [.change (.register limits)] 0
  obtain ⟨d, f, v, -, -, hf, hget, huses⟩ := hfold maxReader hfinds rfl
  refine ⟨hfinds, rfl, fun target h => ?_⟩
  cases hf
  have hsame : (pure (.int 7) : Host Value) = pure v := hget target
  have hv : Value.int 7 = v := Except.ok.inj (congrArg (fun run => (run h).1) hsame)
  rw [hv]
  exact (huses target h).1

end Session

end MemberAccess
