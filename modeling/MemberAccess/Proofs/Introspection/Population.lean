import MemberAccess.Proofs.Firsts
import MemberAccess.Proofs.Introspection.Query
import MemberAccess.Proofs.Registry.Linearization

/-!
# What the map of a class holds

The methods that a class map may hold are declared along the linearization of its class. Of those with one
signature the first counts: the map finds it, or records a miss when the policy denies it.

* `Policy.declarations`: the public methods along a sequence of classes, each with its class.
* `nearest`: of each signature the first declaration.
* `Population.ofLineage_eq`: the population along a lineage, without the steps that fill it;
  `Population.ofLineage_skips`: passing over what has come up before changes nothing.
* `ClassMap.build_linearized`: the map of a class, in terms of its linearization.
-/

namespace MemberAccess

variable {P : Policy} {r : Registry}

/-- A method and the class that declares it. -/
structure Declaration where
  cls : ClassDef
  method : Method

namespace Declaration

def signature (x : Declaration) : Signature := .ofMethod x.method

def allowed (P : Policy) (x : Declaration) : Bool := P.allowsMethod x.cls x.method

/-- What an index records of a declaration. -/
def outcome (P : Policy) (x : Declaration) : Lookup Method := if x.allowed P then .found x.method else .miss

end Declaration

/-- The public methods of the classes in a sequence that are public and allowed. -/
def Policy.declarations (P : Policy) (L : List ClassDef) : List Declaration :=
  L.flatMap fun d => (P.offers d).map (⟨d, ·⟩)

/-- The first declaration of each signature. -/
def nearest : List Declaration → List Declaration
  | [] => []
  | x :: rest => x :: (nearest rest).filter (·.signature ≠ x.signature)

theorem nearest_cons (x : Declaration) (rest : List Declaration) :
    nearest (x :: rest) = x :: (nearest rest).filter (·.signature ≠ x.signature) := rfl

theorem nearest_eq_firsts (D : List Declaration) : nearest D = firsts (·.signature) D := by
  induction D with
  | nil => rfl
  | cons x rest ih => rw [nearest_cons, ih, firsts_cons]

/-- The first declaration with some signature is one of the nearest. -/
theorem find?_nearest (s : Signature) (xs : List Declaration) :
    (nearest xs).find? (·.signature = s) = xs.find? (·.signature = s) := by
  rw [nearest_eq_firsts, find?_firsts]

theorem declarations_cons (P : Policy) (d : ClassDef) (L : List ClassDef) :
    P.declarations (d :: L) = P.declarations [d] ++ P.declarations L := by
  simp [Policy.declarations]

namespace Population

/-- Enters a declaration. -/
def add (P : Policy) (w : Population) (x : Declaration) : Population := enter P x.cls w x.method

theorem ofLineage_eq_foldl (P : Policy) (L : List ClassDef) :
    ofLineage P L = (P.declarations L).foldl (add P) {} := by
  unfold ofLineage Policy.declarations
  rw [List.foldl_flatMap]
  simp only [List.foldl_map]
  rfl

/-- The signature is taken. -/
def Knows (w : Population) (s : Signature) : Bool := (Assoc.get? s w.index).isSome

/-- **A declaration** is passed over when its signature is taken, and is otherwise added at the end. -/
theorem add_eq (w : Population) (x : Declaration) : w.add P x = if w.Knows x.signature then w else
    { index := w.index ++ [(x.signature, x.outcome P)]
      admitted := w.admitted ++ if x.allowed P then [x.method] else [] } := by
  unfold add enter Knows Declaration.outcome Declaration.allowed Declaration.signature
  simp only
  split
  · rfl
  · split <;> simp

theorem knows_add (w : Population) (x : Declaration) (s : Signature) :
    (w.add P x).Knows s = (w.Knows s || x.signature = s) := by
  rw [add_eq]
  cases hx : w.Knows x.signature with
  | true =>
    by_cases hs : x.signature = s
    · simp [← hs, hx]
    · simp [hs]
  | false =>
    have hnone : Assoc.get? x.signature w.index = none := by simpa [Knows] using hx
    rw [if_neg (by simp), ← Assoc.put_of_get?_eq_none hnone]
    unfold Knows
    rw [Assoc.get?_put]
    split <;> simp [*]

theorem knows_foldl (xs : List Declaration) (w : Population) (s : Signature) :
    (xs.foldl (add P) w).Knows s = (w.Knows s || xs.any (·.signature = s)) := by
  induction xs generalizing w with
  | nil => simp
  | cons x rest ih => rw [List.foldl_cons, ih, knows_add, List.any_cons, Bool.or_assoc]

/-- Declarations whose signatures are taken change nothing. -/
theorem foldl_of_knows {xs : List Declaration} {w : Population} (h : ∀ x ∈ xs, w.Knows x.signature = true) :
    xs.foldl (add P) w = w := by
  induction xs with
  | nil => rfl
  | cons x rest ih =>
    rw [List.foldl_cons, add_eq, if_pos (h x List.mem_cons_self)]
    exact ih fun y hy => h y (List.mem_cons_of_mem _ hy)

/-- **The declarations that are added** are those nearest of the signatures that are not taken yet. -/
theorem foldl_add (xs : List Declaration) (w : Population) :
    xs.foldl (add P) w =
      { index := w.index ++ ((nearest xs).filter (!w.Knows ·.signature)).map fun x => (x.signature, x.outcome P)
        admitted := w.admitted ++
          (((nearest xs).filter (!w.Knows ·.signature)).filter (·.allowed P)).map (·.method) } := by
  induction xs generalizing w with
  | nil => simp [nearest]
  | cons x rest ih =>
    rw [List.foldl_cons, ih, nearest_cons]
    cases hx : w.Knows x.signature with
    | true =>
      -- what is dropped beside `x` has a signature that is taken
      have hrest : ((nearest rest).filter (·.signature ≠ x.signature)).filter (!w.Knows ·.signature) =
          (nearest rest).filter (!w.Knows ·.signature) := by
        rw [List.filter_filter]
        congr 1
        funext y
        by_cases hy : y.signature = x.signature <;> simp [hy, hx]
      rw [add_eq, if_pos hx, List.filter_cons_of_neg (by simp [hx]), hrest]
    | false =>
      have hrest : (nearest rest).filter (!(w.add P x).Knows ·.signature) =
          ((nearest rest).filter (·.signature ≠ x.signature)).filter (!w.Knows ·.signature) := by
        rw [List.filter_filter]
        congr 1
        funext y
        rw [knows_add]
        simp [eq_comm]
      rw [hrest, add_eq, if_neg (by simp [hx]), List.filter_cons_of_pos (by simp [hx])]
      cases hallow : x.allowed P <;> simp [hallow]

/-- **The population along a lineage**, without the steps that fill it. -/
theorem ofLineage_eq (P : Policy) (L : List ClassDef) :
    ofLineage P L =
      { index := (nearest (P.declarations L)).map fun x => (x.signature, x.outcome P)
        admitted := ((nearest (P.declarations L)).filter (·.allowed P)).map (·.method) } := by
  have hnothing : ∀ s, ({} : Population).Knows s = false := fun _ => rfl
  rw [ofLineage_eq_foldl, foldl_add]
  simp [hnothing]

/-- What the index of a lineage holds for a signature is what it records of the first declaration. -/
theorem get?_ofLineage (P : Policy) (L : List ClassDef) (s : Signature) :
    Assoc.get? s (ofLineage P L).index =
      ((P.declarations L).find? (·.signature = s)).map (·.outcome P) := by
  rw [ofLineage_eq, ← find?_nearest]
  simp only
  induction nearest (P.declarations L) with
  | nil => rfl
  | cons x rest ih =>
    by_cases hs : x.signature = s
    · simp [Assoc.get?, hs]
    · simp [Assoc.get?, hs, ih]

/-- **Passing over classes that have come up before changes nothing**: their signatures are taken. -/
theorem ofLineage_skips {L L' : List ClassDef} (h : Skips [] L L') : ofLineage P L = ofLineage P L' := by
  rw [ofLineage_eq_foldl, ofLineage_eq_foldl]
  -- from any population on that has entered the classes seen so far
  suffices ∀ {seen}, Skips seen L L' → ∀ w : Population,
      (∀ d ∈ seen, ∀ x ∈ P.declarations [d], w.Knows x.signature = true) →
      (P.declarations L).foldl (add P) w = (P.declarations L').foldl (add P) w from
    this h {} (fun d hd => by cases hd)
  intro seen hskips
  clear h
  induction hskips with
  | nil => intro w _; rfl
  | @keep seen a full kept _ ih =>
    intro w hw
    rw [declarations_cons, declarations_cons P a kept, List.foldl_append, List.foldl_append]
    apply ih
    intro d hd x hx
    rw [knows_foldl, Bool.or_eq_true]
    rcases List.mem_cons.1 hd with rfl | hd
    · exact Or.inr (List.any_eq_true.2 ⟨x, hx, by simp⟩)
    · exact Or.inl (hw d hd x hx)
  | @skip seen a full kept ha _ ih =>
    intro w hw
    rw [declarations_cons, List.foldl_append, foldl_of_knows (hw a ha)]
    exact ih w hw

end Population

/-- A body that answers null. -/
def Body.answersNull : Body := .ofPure fun _ _ => .ok .null

/-! ## The map of a class -/

namespace ClassMap

/-- The map of a class is none only when the class is unknown, retired or denied, or exposes nothing. -/
theorem build_of_allowed {c : ClassId} {d : ClassDef} (hd : r.class? c = some d) (halive : r.isAlive c = true)
    (hallow : P.allowsClass d = true) :
    build r P c =
      if (Population.ofLineage P (r.lineage d)).index = [] ∧ P.shownFields d = [] then none
      else some { cls := c, className := d.qualifiedName, index := (Population.ofLineage P (r.lineage d)).index,
                  admitted := (Population.ofLineage P (r.lineage d)).admitted, fields := P.shownFields d } := by
  unfold build
  simp only [hd, halive, hallow, Option.bind_eq_bind, Option.bind_some, Bool.and_self, guard, if_true,
    Option.pure_def]
  cases (Population.ofLineage P (r.lineage d)).index <;> cases P.shownFields d <;> simp

/-- **The map of a class is what its linearization says.** In every registry that a host can make, a class
that is alive and allowed has a linearization, and in terms of it its map is none exactly when nothing is
declared along it and the class shows no field. Otherwise, what the map holds for a signature is the first
declaration with that signature, as a miss when it is denied, and nothing when there is none; and the
overloads of a name are the first declarations that are allowed and have that name, in order. -/
theorem build_linearized (changes : List Registry.Change) (P : Policy) {c : ClassId} {d : ClassDef} :
    let r := Registry.initial.applyAll changes
    r.class? c = some d → r.isAlive c = true → P.allowsClass d = true →
    (∃ L, r.Linearized d L) ∧ ∀ L, r.Linearized d L →
      (build r P c = none ↔ P.declarations L = [] ∧ P.shownFields d = []) ∧
      ∀ m, build r P c = some m →
        (∀ s, Assoc.get? s m.index = ((P.declarations L).find? (·.signature = s)).map (·.outcome P)) ∧
        ∀ name, m.overloads name =
          (((nearest (P.declarations L)).filter (·.allowed P)).map (·.method)).filter (·.name = name) := by
  intro r hd halive hallow
  have hp : r.Proper := Registry.proper_applyAll Registry.proper_initial changes
  refine ⟨Registry.exists_linearized hp hd, ?_⟩
  intro L hL
  rw [build_of_allowed hd halive hallow, ← Population.ofLineage_skips (Registry.skips_lineage hp hd hL)]
  have hempty : (Population.ofLineage P L).index = [] ↔ P.declarations L = [] := by
    rw [Population.ofLineage_eq]
    cases P.declarations L <;> simp [nearest]
  simp only [hempty]
  refine ⟨by split <;> simp_all, ?_⟩
  intro m hm
  split at hm
  · cases hm
  · cases hm
    refine ⟨Population.get?_ofLineage P L, fun name => ?_⟩
    unfold overloads
    simp only [Population.ofLineage_eq]

/-- A class with two interfaces, one of which extends the other and declares its method again. -/
def book : ClassDecl := ((ClassDecl.ofName "t.Book").implementing ⟨20⟩).implementing ⟨19⟩

def shelf : List Registry.Change :=
  [.register ((ClassDecl.interface "t.Named").method "name" [] .string .answersNull),
    .register (((ClassDecl.interface "t.Titled").implementing ⟨19⟩).method "name" [] .string .answersNull),
    .register book]

/-- The method is denied where it is declared again, and that is nearer. -/
def untitled : Policy := .narrowed .unrestricted [⟨"t", [("Titled", { methods := ["name"] })]⟩]

theorem build_linearized_book :
    let r := Registry.initial.applyAll shelf
    let d := ClassDef.ofDecl ⟨21⟩ book
    (r.class? ⟨21⟩ = some d ∧ r.isAlive ⟨21⟩ = true ∧ untitled.allowsClass d = true) ∧
    (∃ L, r.Linearized d L) ∧ ∀ L, r.Linearized d L →
      (build r untitled ⟨21⟩ = none ↔ untitled.declarations L = [] ∧ untitled.shownFields d = []) ∧
      ∀ m, build r untitled ⟨21⟩ = some m →
        (∀ s, Assoc.get? s m.index =
          ((untitled.declarations L).find? (·.signature = s)).map (·.outcome untitled)) ∧
        ∀ name, m.overloads name =
          (((nearest (untitled.declarations L)).filter (·.allowed untitled)).map (·.method)).filter
            (·.name = name) :=
  have hd : (Registry.initial.applyAll shelf).class? ⟨21⟩ = some (ClassDef.ofDecl ⟨21⟩ book) := rfl
  ⟨⟨hd, by decide +kernel, by decide +kernel⟩,
    build_linearized shelf untitled hd (by decide +kernel) (by decide +kernel)⟩

end ClassMap

end MemberAccess
