import MemberAccess.Proofs.Binding.Recurrence
import MemberAccess.Proofs.Binding.Trial
import MemberAccess.Proofs.Session

/-!
# Bindings that do not apply

Whatever an engine has found for one situation can be tried in another one, with any value as a target. If the binding
is not for that, the trial does nothing, and no code of the host is run to find that out. For null it takes a look at
the registry: null passes for an instance of the root class, and bindings that go through fields do not ask whether the
target is null, but the root class has no fields.

* `Discovery.Found.ne_object`: a binding that goes through a field serves another class than the root.
* `Session.stale_of_misses`: a trial that a binding is not for does nothing, in any run.
-/

namespace MemberAccess

variable {r : Registry} {b : Binding}

/-- What is found through a field serves a class with fields. -/
theorem Discovery.Found.ne_object (hinit : Registry.initial.GrowsTo r) {d : Discovery}
    (h : d.Found (fun k => k.InOrder ∧ k.Grounded r) r b) {f : Field} (hf : b.member? = some (.field f)) :
    b.cls ≠ .object := by
  cases h with
  | constructor => cases hf
  | member on cls into =>
    rw [hf] at into
    rw [cls]
    cases into with
    | field hk hfield => exact hk.2.findField_ne_object hinit hk.1 hfield

namespace Session

/-- **A trial that a binding is not for does nothing**: take a binding of any sort that an engine finds in any run, and
try it with null, with an instance of another class, with a property that is not of the name, the key, the type of keys
or the numbers that it is bound to, or with a call of another signature. There is no access, the binding does not
apply, and the heap is as it was. -/
theorem stale_of_misses (policy : Nat → Policy) (strategy : Nat → Strategy) (heap : Heap) (es : List Event) (i : Nat)
    (d : Discovery) (b : Binding) :
    let s := (start policy strategy heap).run es
    (d.search (s.engines i) s.registry (s.memory i)).1 = .ok (some b) →
      ∀ t, b.Misses t → b.replay? t = none ∧ ∀ h, b.tryInvoke t h = (.ok .stale, h) := by
  intro s hfound t hmisses
  obtain ⟨-, hinit, hgrounded⟩ := grounded_run policy strategy heap es i
  have horder : (s.memory i).InOrder :=
    invariant_inOrder.run (s := start policy strategy heap) (Introspector.inOrder_new (policy i)) es
  obtain ⟨hcame, -⟩ := (Discovery.ensures_search (Introspector.keptByQueries_grounded s.registry) (s.engines i) d
    (s.memory i) ⟨horder, hgrounded⟩).2.1 _ hfound b rfl
  have hnone : b.replay? t = none := Binding.replay?_of_misses (fun f hf => hcame.ne_object hinit hf) hmisses
  refine ⟨hnone, fun h => ?_⟩
  rw [Binding.tryInvoke_eq, hnone]
  rfl

/-- A class with a constant. -/
def limits : ClassDecl := (ClassDecl.ofName "t.Limits").constant "MAX" .int (.int 7)

/-- The session in which that class has been registered. -/
def limited : Session := (start (fun _ => .unrestricted) (fun _ => .pojo) {}).run [.change (.register limits)]

def someLimits : Value := .object ⟨0, ⟨19⟩⟩

/-- What is found for reading the constant. -/
def maxReader : Reader := ⟨⟨19⟩, .field ⟨⟨"MAX", .int, true, .constant (.int 7)⟩, ⟨⟨19⟩, 0⟩⟩⟩

/-- A constant that is found on an instance is not read from null. -/
theorem stale_of_misses_null :
    let d := Discovery.read (.resolvers [.field]) someLimits (.string "MAX")
    let t := Trial.read .null (.string "MAX")
    (d.search (limited.engines 0) limited.registry (limited.memory 0)).1 = .ok (some (.reader maxReader)) ∧
      (Binding.reader maxReader).Misses t ∧ (Binding.reader maxReader).replay? t = none ∧
      ∀ h, (Binding.reader maxReader).tryInvoke t h = (.ok .stale, h) := by
  intro d t
  have hfound : (d.search (limited.engines 0) limited.registry (limited.memory 0)).1 =
      .ok (some (.reader maxReader)) := rfl
  have hmisses : (Binding.reader maxReader).Misses t := .target rfl (.inl rfl)
  exact ⟨hfound, hmisses, stale_of_misses _ _ _ [.change (.register limits)] 0 d (.reader maxReader) hfound t hmisses⟩

end Session

end MemberAccess
