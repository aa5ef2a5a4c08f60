import MemberAccess.Engine

/-!
# Call sites

A site is a place in a script that remembers the binding it used last. An evaluation first tries that
one; only when it does not apply does the engine search again. The site counts what its binding
answered and what needed a search.

* `Site.evaluate`: one evaluation at a site.
-/

namespace MemberAccess

variable {β : Type}

structure Site (β : Type) where
  cached : Option β := none
  hits : Nat := 0
  misses : Nat := 0

namespace Site

def empty : Site β := {}

/-- Forgets the binding, but not the counts. -/
def clear (s : Site β) : Site β := { s with cached := none }

def hit (s : Site β) : Site β := { s with hits := s.hits + 1 }

def missed (s : Site β) : Site β := { s with misses := s.misses + 1 }

/-- Keeps a binding that has been used, if its plan may keep it. An engine keeps what is alive. That is what it finds,
and host code acts on the heap alone and retires no class between the search and the use, so the plans of an engine
keep all that they find; the condition is one on plans of any other kind. -/
def keep (s : Site β) (p : Plan β) (b : β) : Site β := if p.keeps b then { s with cached := some b } else s

/-- An evaluation that the cached binding does not answer. Only a binding that has been used with
success is kept. -/
def miss (s : Site β) (p : Plan β) (w : World) : Except AccessError (Option Value) × Site β × World :=
  match p.fresh w with
  | (.ok (some (b, v)), w) => (.ok (some v), s.missed.keep p b, w)
  | (.ok none, w) => (.ok none, s.missed, w)
  | (.error e, w) => (.error e, s.missed, w)

/-- Evaluates at a site: the cached binding is tried first, and when its own member fails, so does the
evaluation. None means that there is nothing to access. -/
def evaluate (s : Site β) (p : Plan β) (w : World) : Except AccessError (Option Value) × Site β × World :=
  match s.cached with
  | none => s.miss p w
  | some b =>
    match Evaluation.run (p.attempt b) w with
    | (.ok (.done v), w) => (.ok (some v), s.hit, w)
    | (.ok .stale, w) => s.miss p w
    -- counted neither as a hit nor as a miss
    | (.error e, w) => (.error e, s, w)

end Site

end MemberAccess
