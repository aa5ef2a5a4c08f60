import MemberAccess.Strategy

/-!
# Engines

An engine is the memory of one policy with a strategy. It finds the binding for an access, and an
access made through it is the search for a binding followed by its first use.

* `Engine.findReader`, `Engine.findWriter`, `Engine.findCaller`, `Engine.findCreator`: the searches. No
  binding means that there is no such member or that the policy hides it.
* `Evaluation`: a run that may use the engine's memory and the heap.
* `Plan.fresh`: an access without anything remembered from earlier ones.
-/

namespace MemberAccess

structure Engine where
  introspector : Introspector
  strategy : Strategy := .pojo

namespace Engine

/-- An engine that has not been used. -/
def new (policy : Policy) (strategy : Strategy) : Engine := ⟨{ policy }, strategy⟩

def resolvers (e : Engine) (r : Registry) (target : Value) (style : AccessStyle) : List Resolver :=
  e.strategy.resolvers r target.cls style

/-- Finds a reader for `target.key` or `target[key]`. -/
def findReader (e : Engine) (r : Registry) (style : AccessStyle) (target key : Value) :
    Search (Option Reader) :=
  Resolver.firstReader (e.resolvers r target style) r target key

/-- Finds a writer for `target.key = v` or `target[key] = v`. -/
def findWriter (e : Engine) (r : Registry) (style : AccessStyle) (target key v : Value) :
    Search (Option Writer) :=
  Resolver.firstWriter (e.resolvers r target style) r target key v

/-- Finds the overload for a call on a class, static ones included. -/
def findCallerOn (r : Registry) (c : ClassId) (name : String) (args : List Value) :
    Search (Option Caller) :=
  return (← Caller.search r c name args).filter (·.isAlive r)

/-- Finds the overload for `target.name(args)`; fields are never considered. -/
def findCaller (r : Registry) (target : Value) (name : String) (args : List Value) :
    Search (Option Caller) :=
  if target.isNull then pure none else findCallerOn r target.cls name args

/-- Finds the constructor of a class for some arguments. -/
def findCreator (r : Registry) (name : String) (args : List Value) : Search (Option Creator) :=
  return (← Creator.search r name args).filter (·.isAlive r)

end Engine

/-- What an evaluation works on. -/
structure World where
  engine : Engine
  heap : Heap

/-- A run that may use the memory of an engine and the heap. -/
abbrev Evaluation := ExceptT AccessError (StateM World)

namespace Evaluation

/-- A search through the engine's memory. -/
def search {α : Type} (s : Search α) : Evaluation α := fun w =>
  let (answer, known) := s w.engine.introspector
  (answer.mapError .ambiguous, { w with engine := { w.engine with introspector := known } })

/-- A run of host code. -/
def run {α : Type} (a : Run α) : Evaluation α := fun w =>
  let (answer, heap) := a w.heap
  (answer, { w with heap })

end Evaluation

/-- What an evaluation does with bindings of some sort: how it finds one, what one that it has found
does for it, what one that it had before does, if that one applies, and whether a binding may be kept. -/
structure Plan (β : Type) where
  find : Search (Option β)
  access : β → Access
  replay? : β → Option Access
  keeps : β → Bool

/-- Uses a binding that has been found. -/
def Plan.invoke {β : Type} (p : Plan β) (b : β) : Run Value := (p.access b).run

/-- Tries a binding that was there before. -/
def Plan.attempt {β : Type} (p : Plan β) (b : β) : Run Outcome := attemptIf (p.replay? b)

/-- Finds a binding and uses it. -/
def Plan.fresh {β : Type} (p : Plan β) : Evaluation (Option (β × Value)) := do
  match ← Evaluation.search p.find with
  | none => pure none
  | some b => return some (b, ← Evaluation.run (p.invoke b))

namespace Engine

/-- Reading `target.key` or `target[key]`. -/
def reading (e : Engine) (r : Registry) (style : AccessStyle) (target key : Value) : Plan Reader where
  find := e.findReader r style target key
  access b := b.access target
  replay? b := b.replay? target key
  keeps b := b.isAlive r

/-- Writing `target.key = v` or `target[key] = v`. -/
def writing (e : Engine) (r : Registry) (style : AccessStyle) (target key v : Value) : Plan Writer where
  find := e.findWriter r style target key v
  access b := b.access target v
  replay? b := b.replay? target key v
  keeps b := b.isAlive r

/-- Calling `target.name(args)`. -/
def calling (r : Registry) (target : Value) (name : String) (args : List Value) : Plan Caller where
  find := findCaller r target name args
  access b := b.access target args
  replay? b := b.replay? target name args
  keeps b := b.isAlive r

end Engine

end MemberAccess
