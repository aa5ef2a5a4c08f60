import MemberAccess.Assoc

/-!
# Trees of settings

A TOML document is a tree of tables. Tables come about in several ways, and which ones may still be
added to depends on how: a table is never defined twice.

* `Node.edit`: changes the table at the end of a path of keys.
* `Node.assign`, `Node.openTable`, `Node.openElement`: what a pair, a header `[k]` and a header `[[k]]` do.
-/

namespace MemberAccess.Toml

/-- How a table came about: by its own header or as an element of an array, by the header of a table
inside it, by a dotted key, or between braces. -/
inductive Origin where
  | declared
  | implied
  | dotted
  | braces
deriving DecidableEq

inductive Node where
  | string (s : String)
  | boolean (b : Bool)
  /-- a number or a date; no setting takes one, so its content is not kept -/
  | plain
  | array (items : List Node)
  /-- an array whose elements have headers `[[k]]` -/
  | tables (items : List Node)
  | table (origin : Origin) (entries : List (String × Node))

namespace Node

/-- The document without entries. -/
def root : Node := .table .declared []

/-- Changes the table at the end of a path, going to the last element of an array of tables. Missing
tables are made with an origin; dotted keys do not lead into tables that have a header. -/
def edit (made : Origin) (change : Origin → List (String × Node) → Option Node) :
    List String → Node → Option Node
  | [], .table origin entries => change origin entries
  | key :: path, .table origin entries => do
    let child ← match (Assoc.get? key entries).getD (.table made []) with
      | .tables items => do
        let last ← edit made change path (← items.getLast?)
        some (.tables (items.dropLast ++ [last]))
      | .table .braces _ => none
      | .table .declared inner =>
        if made = .dotted then none else edit made change path (.table .declared inner)
      | .table o inner => edit made change path (.table o inner)
      | _ => none
    some (.table origin (Assoc.put key child entries))
  | _, _ => none

/-- Enters a value under a dotted key, which must be free. A dotted key does not add to tables that a
header made. -/
def assign (t : Node) (path : List String) (key : String) (v : Node) : Option Node :=
  t.edit .dotted (fun origin entries =>
    if decide (origin = .dotted) = path.isEmpty || (Assoc.get? key entries).isSome then none
    else some (.table origin (entries ++ [(key, v)]))) path

/-- Changes the entry of a key in the table at the end of a path of headers. -/
def openWith (path : List String) (key : String) (entry : Option Node → Option Node) (t : Node) :
    Option Node :=
  t.edit .implied (fun origin entries => do
    some (.table origin (Assoc.put key (← entry (Assoc.get? key entries)) entries))) path

/-- The header of a table, which must be new or have been implied. -/
def openTable (path : List String) (key : String) : Node → Option Node :=
  openWith path key fun
    | none => some (.table .declared [])
    | some (.table .implied entries) => some (.table .declared entries)
    | some _ => none

/-- The header of one more element of an array of tables. -/
def openElement (path : List String) (key : String) : Node → Option Node :=
  openWith path key fun
    | none => some (.tables [.table .declared []])
    | some (.tables items) => some (.tables (items ++ [.table .declared []]))
    | some _ => none

/-- The table of a list of pairs between braces. -/
def ofPairs (pairs : List (List String × String × Node)) : Option Node := do
  match ← pairs.foldlM (fun (t : Node) (path, key, v) => t.assign path key v) root with
  | .table _ entries => some (.table .braces entries)
  | _ => none

end Node

end MemberAccess.Toml
