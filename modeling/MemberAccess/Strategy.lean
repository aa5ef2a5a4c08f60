import MemberAccess.Binding.Caller
import MemberAccess.Binding.Reader
import MemberAccess.Binding.Writer

/-!
# Resolution orders

Which families of bindings are searched for a property, and in which order, depends on how the
property is written and on the strategy of the engine. The first binding found whose member is alive
is taken; an ambiguous call ends the search.

* `Strategy.resolvers`: the order for a class and a style.
* `Resolver.firstReader`, `Resolver.firstWriter`: the search in some order.
-/

namespace MemberAccess

/-- What a property may be: one of the class itself, or of one of its other faces. -/
inductive Resolver where
  | property
  | map
  | list
  | duck
  | field
deriving DecidableEq

/-- How a property is written: `a.b` or `a[b]`. -/
inductive AccessStyle where
  | dot
  | bracket
deriving DecidableEq

/-- How an engine orders its resolvers. Under `map`, maps resolve to their entries alone. -/
inductive Strategy where
  | pojo
  | map
deriving DecidableEq

/-- The strategies by their names. -/
def Strategy.named : List (String × Strategy) := [("pojo", .pojo), ("map", .map)]

/-- Accessors come first for `a.b`, containers for `a[b]`. -/
def AccessStyle.resolvers : AccessStyle → List Resolver
  | dot => [.property, .map, .list, .duck, .field]
  | bracket => [.map, .list, .duck, .property, .field]

def Strategy.resolvers (s : Strategy) (r : Registry) (c : ClassId) (style : AccessStyle) :
    List Resolver :=
  if s = .map ∧ r.isAssignable c .map then [.map] else style.resolvers

/-- The first alive binding among what a list of searches finds. -/
def Search.firstAlive {β : Type} (alive : β → Bool) : List (Search (Option β)) → Search (Option β)
  | [] => pure none
  | search :: rest => do
    match (← search).filter alive with
    | some b => pure (some b)
    | none => firstAlive alive rest

namespace Resolver

/-- The reader that a resolver finds; an accessor is looked for before a flag. -/
def reader (r : Registry) (c : ClassId) (key : Value) : Resolver → Search (Option Reader)
  | property => do
    match ← Reader.search r c key .getter with
    | some b => pure (some b)
    | none => Reader.search r c key .flag
  | map => Reader.search r c key .map
  | list => Reader.search r c key .list
  | duck => Reader.search r c key .duck
  | field => Reader.search r c key .field

/-- The writer that a resolver finds. -/
def writer (r : Registry) (c : ClassId) (key v : Value) : Resolver → Search (Option Writer)
  | property => Writer.search r c key v .setter
  | map => Writer.search r c key v .map
  | list => Writer.search r c key v .list
  | duck => Writer.search r c key v .duck
  | field => Writer.search r c key v .field

/-- Searches for a reader of a property, in order. Null has no properties. -/
def firstReader (resolvers : List Resolver) (r : Registry) (target key : Value) : Search (Option Reader) :=
  if target.isNull then pure none
  else Search.firstAlive (·.isAlive r) (resolvers.map (reader r target.cls key))

/-- Searches for a writer of a property, in order. -/
def firstWriter (resolvers : List Resolver) (r : Registry) (target key v : Value) :
    Search (Option Writer) :=
  if target.isNull then pure none
  else Search.firstAlive (·.isAlive r) (resolvers.map (writer r target.cls key v))

end Resolver

end MemberAccess
