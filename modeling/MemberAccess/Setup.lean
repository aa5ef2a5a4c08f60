import MemberAccess.Engine

/-!
# Engines as configured

A configuration says what an engine is made from: the base of its policy, the classes that are granted on top of it, the
rule texts that are denied on top of all that, and a strategy.

* `Config`: the settings, with their defaults.
* `Config.policy?`, `Config.build`: the policy and the engine.
-/

namespace MemberAccess

/-- The policy that grants and denials start from. -/
inductive PolicyBase where
  | unrestricted
  | restricted
deriving DecidableEq

def PolicyBase.policy : PolicyBase → Policy
  | unrestricted => .unrestricted
  | restricted => .restricted

structure Config where
  strict : Bool := false
  strategy : Strategy := .pojo
  base : PolicyBase := .unrestricted
  allow : List String := []
  deny : List String := []
deriving DecidableEq

namespace Config

def default : Config := {}

/-- The base with the grants. -/
def granted (c : Config) : Policy :=
  if c.allow.isEmpty then c.base.policy else c.base.policy.withClasses c.allow

/-- The policy of a configuration, or the fault of the first denial that is no rule text. -/
def policy? (c : Config) : Except Rule.Error Policy := c.deny.foldlM Policy.compose c.granted

/-- An engine as configured. -/
def build (c : Config) : Except Rule.Error Engine := c.policy?.map (.new · c.strategy)

end Config

end MemberAccess
