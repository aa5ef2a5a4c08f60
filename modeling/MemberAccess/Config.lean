import MemberAccess.Setup
import MemberAccess.Toml.Document

/-!
# Configurations in texts

The table `introspection` of a document of settings says how an engine is made:

    [introspection]
    strict = true
    strategy = "pojo"            # or "map"
    permissions = "restricted"   # or "unrestricted"
    allow = ["app.model.Person"]
    deny = ["app.model { Person { ssn; wipe(); } }"]

* `Config.ofText?`: the configuration in a text; what is not said has its default.
-/

namespace MemberAccess

/-- The bases by their names. -/
def PolicyBase.named : List (String × PolicyBase) :=
  [("unrestricted", .unrestricted), ("restricted", .restricted)]

namespace Config

open Toml (Node)

/-- One of some named choices: its name, or a table that holds nothing but an empty entry of that
name. -/
def choice? {α : Type} (choices : List (String × α)) : Node → Option α
  | .string name => Assoc.get? name choices
  | .table _ [(name, .array [])] | .table _ [(name, .table _ [])] => Assoc.get? name choices
  | _ => none

def flag? : Node → Option Bool
  | .boolean b => some b
  | _ => none

def text? : Node → Option String
  | .string s => some s
  | _ => none

def texts? : Node → Option (List String)
  | .array items => items.mapM text?
  | _ => none

def strategy? : Node → Option Strategy := choice? Strategy.named

def base? : Node → Option PolicyBase := choice? PolicyBase.named

/-- The names of the settings, in the order in which a list gives them. -/
def names : List String := ["strict", "strategy", "permissions", "allow", "deny"]

/-- The configuration with one more setting, if there is such a setting and it takes the value. -/
def put (c : Config) (name : String) (v : Node) : Option Config :=
  match name with
  | "strict" => (flag? v).map fun strict => { c with strict }
  | "strategy" => (strategy? v).map fun strategy => { c with strategy }
  | "permissions" => (base? v).map fun base => { c with base }
  | "allow" => (texts? v).map fun allow => { c with allow }
  | "deny" => (texts? v).map fun deny => { c with deny }
  | _ => none

/-- The settings of a table, or of a list that gives them in order. -/
def settings? : Node → Option (List (String × Node))
  | .table _ entries => some entries
  | .array items | .tables items => some (names.zip items)
  | _ => none

/-- The configuration of an entry. -/
def ofNode? (v : Node) : Option Config := do
  (← settings? v).foldlM (fun c (name, v) => c.put name v) default

/-- The configuration in a document, whose other entries do not matter. -/
def ofText? (s : String) : Option Config := do
  match ← Node.ofText? s with
  | .table _ entries => match Assoc.get? "introspection" entries with
    | some v => ofNode? v
    | none => some default
  | _ => none

end Config

end MemberAccess
