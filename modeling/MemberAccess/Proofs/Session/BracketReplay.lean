import MemberAccess.Proofs.Binding.OtherKey
import MemberAccess.Proofs.Session.PropertySite
import MemberAccess.Proofs.Session.RetiredClass

/-!
# Brackets with changing keys

A script that reads `a[b]` keeps the reader that was found for one key and uses it with the next one. Where the
reader applies, it need not do what a search for that key would lead to: accessors and fields apply to every key of
their name, and lists to every number, but the order of brackets looks at the type of the key.

* `Settled.replay_iff`: a settled reader and another key.
* `Session.bracket_replay_iff`: a reader makes the access of a search for the other key, unless it is shadowed.
* `Session.not_bracket_replay`: an accessor that is shadowed.
-/

namespace MemberAccess

namespace Session

variable {s : Session} {i : Nat} {key key' target : Value} {b : Reader} {a : Access}

/-- Searching for a reader is one of the discoveries. -/
theorem search_read_iff {e : Engine} {r : Registry} {style : AccessStyle} {k : Introspector} :
    ((Discovery.read (.style style) target key).search e r k).1 = .ok (some (.reader b)) ↔
      (e.findReader r style target key k).1 = .ok (some b) := by
  constructor
  · intro h
    obtain ⟨b', hb', hsame⟩ := Search.found_of_map h
    rwa [Binding.reader.inj hsame] at hb'
  · intro h
    change ((do pure ((← e.findReader r style target key).map Binding.reader) : Search (Option Binding)) k).1 = _
    rw [Search.map_apply, h]
    rfl

/-- **A settled reader that is used with another key** makes the access of the one that a search for that key finds,
unless it is shadowed. -/
theorem Settled.replay_iff (h : Settled (.read .bracket key) s.registry (s.engines i) (.reader b))
    (hk : (s.memory i).InOrder) (hp : s.registry.Proper) (hinit : Registry.initial.GrowsTo s.registry)
    (hmade : s.registry.Made) (ha : b.replay? target key' = some a) :
    (∃ b', ((s.engines i).findReader s.registry .bracket target key' (s.memory i)).1 = .ok (some b') ∧
        b'.access target = a) ↔ ¬b.Shadowed (s.memory i) s.registry key key' := by
  obtain ⟨hcls, hfamily, hroute⟩ := Reader.of_replay? ha
  have hnull : target.isNull = false :=
    h.isNull_of_cls hinit hcls fun hnull => ReadRoute.member?_of_family (hfamily hnull)
  -- a search for the key that the reader was found for finds it on this target
  have hagain : ((s.engines i).findReader s.registry .bracket target key (s.memory i)).1 = .ok (some b) :=
    search_read_iff.1 (h.found (.refl _) rfl hk (.refl _ _) (u := .read 0 .bracket target key) rfl hnull hcls)
  simp only [Engine.findReader, Engine.resolvers, Resolver.firstReader_bracket_iff hk _ hnull] at hagain ⊢
  exact Resolver.replay_agrees_iff hk hp hinit hmade hagain hroute

/-- **A reader that is used with another key**: take a reader that an engine finds in any run for a key in brackets.
Whatever happens from then on, as long as no class is retired and no map of the engine is purged, and whatever
target and key the reader applies to, the engine finds a reader that makes the same access for that key, if and only
if the first one is not shadowed: it is not a list that is a map as well and takes the key as such, and not an
accessor or a field while the key is another one, of the same name, that `get` answers or an array takes. -/
theorem bracket_replay_iff (policy : Nat → Policy) (strategy : Nat → Strategy) (heap : Heap)
    (before after : List Event) (i : Nat) (target target' key key' : Value) (b : Reader) (a : Access) :
    let s := (start policy strategy heap).run before
    let later := (s.step (.find i (.read (.style .bracket) target key))).run after
    ((s.engines i).findReader s.registry .bracket target key (s.memory i)).1 = .ok (some b) →
      (∀ e ∈ after, e.Keeps i) → b.replay? target' key' = some a →
        ((∃ b', ((later.engines i).findReader later.registry .bracket target' key' (later.memory i)).1 =
            .ok (some b') ∧ b'.access target' = a) ↔
          ¬b.Shadowed (later.memory i) later.registry key key') := by
  intro s later hfound hkeeps ha
  let e : Event := .find i (.read (.style .bracket) target key)
  have hground := grounded_run policy strategy heap before i
  have hk : (s.memory i).InOrder :=
    invariant_inOrder.run (s := start policy strategy heap) (Introspector.inOrder_new (policy i)) before
  have hmade : s.registry.Made :=
    invariant_made.run (s := start policy strategy heap) (i := i) Registry.made_initial before
  -- the reader is settled in the engine that has found it, and stays so
  have hsettled : Settled (.read .bracket key) (s.step e).registry ((s.step e).engines i) (.reader b) := by
    obtain ⟨hp, hinit, hgrounded⟩ := hground
    have hsettled := settled_of_found (u := .read 0 .bracket target key) hp hinit hk hgrounded rfl
      (search_read_iff.2 hfound)
    have hengine : (s.step e).engines i = { s.engines i with
        introspector := ((Use.read 0 .bracket target key).discovery.search (s.engines i) s.registry (s.memory i)).2 } :=
      Function.update_self ..
    rw [hengine]
    exact hsettled
  have hk' := invariant_inOrder.step hk e
  obtain ⟨hp, hinit, -⟩ := invariant_grounded.run (invariant_grounded.step hground e) after
  exact (hsettled.run hk' hkeeps).replay_iff (invariant_inOrder.run hk' after) hp hinit
    (invariant_made.run (i := i) (invariant_made.step (i := i) hmade e) after) ha

/-- A class with a method for texts, and an accessor whose name a text spells. -/
def drawer : ClassDecl :=
  ((ClassDecl.ofName "t.Drawer").method "get" [.string] .object .answersNull).method "get5" [] .object .answersNull

/-- The session in which that class has been registered. -/
def stocked : Session := (start (fun _ => .unrestricted) (fun _ => .pojo) {}).run [.change (.register drawer)]

def aDrawer : Value := .object ⟨0, ⟨19⟩⟩

/-- What is found for the int. -/
def drawerReader : Reader := ⟨⟨19⟩, .getter ⟨⟨"get5", [], .object, .shown, .answersNull⟩, ⟨⟨19⟩, 1⟩⟩ "5"⟩

/-- What is found for the text. -/
def textReader : Reader :=
  ⟨⟨19⟩, .duck ⟨⟨"get", [.string], .object, .shown, .answersNull⟩, ⟨⟨19⟩, 0⟩⟩ (.string "5") (.string "5")⟩

theorem drawerReader_found :
    ((stocked.engines 0).findReader stocked.registry .bracket aDrawer (.int 5) (stocked.memory 0)).1 =
      .ok (some drawerReader) := rfl

/-- The session in which that reader has been found. -/
def searched : Session := stocked.step (.find 0 (.read (.style .bracket) aDrawer (.int 5)))

theorem textReader_found :
    ((searched.engines 0).findReader searched.registry .bracket aDrawer (.string "5") (searched.memory 0)).1 =
      .ok (some textReader) := rfl

theorem bracket_replay_iff_drawer :
    ((stocked.engines 0).findReader stocked.registry .bracket aDrawer (.int 5) (stocked.memory 0)).1 =
        .ok (some drawerReader) ∧
      drawerReader.replay? aDrawer (.string "5") = some (drawerReader.access aDrawer) ∧
      ((∃ b', ((searched.engines 0).findReader searched.registry .bracket aDrawer (.string "5")
            (searched.memory 0)).1 = .ok (some b') ∧ b'.access aDrawer = drawerReader.access aDrawer) ↔
        ¬drawerReader.Shadowed (searched.memory 0) searched.registry (.int 5) (.string "5")) :=
  ⟨drawerReader_found, rfl, bracket_replay_iff (fun _ => .unrestricted) (fun _ => .pojo) {}
    [.change (.register drawer)] [] 0 aDrawer aDrawer (.int 5) (.string "5") drawerReader _ drawerReader_found
    (fun _ he => by cases he) rfl⟩

/-- A reader that applies need not do what a search would lead to: an accessor that was found for an int is used for
the text that spells it, and a search for the text finds the method that takes texts. -/
theorem not_bracket_replay :
    ¬ ∀ (policy : Nat → Policy) (strategy : Nat → Strategy) (heap : Heap) (before after : List Event) (i : Nat)
        (target target' key key' : Value) (b : Reader) (a : Access),
      let s := (start policy strategy heap).run before
      let later := (s.step (.find i (.read (.style .bracket) target key))).run after
      ((s.engines i).findReader s.registry .bracket target key (s.memory i)).1 = .ok (some b) →
        (∀ e ∈ after, e.Keeps i) → b.replay? target' key' = some a →
          ∃ b', ((later.engines i).findReader later.registry .bracket target' key' (later.memory i)).1 =
            .ok (some b') ∧ b'.access target' = a := by
  intro h
  obtain ⟨b', hfound, haccess⟩ := h (fun _ => .unrestricted) (fun _ => .pojo) {} [.change (.register drawer)] [] 0
    aDrawer aDrawer (.int 5) (.string "5") drawerReader _ drawerReader_found (fun _ he => by cases he) rfl
  cases hfound.symm.trans textReader_found
  -- one method is given the text, the other one nothing
  obtain ⟨-, -, hargs⟩ := Access.call.inj haccess
  cases hargs

end Session

end MemberAccess
