import TypeRecovery.Assoc

/-!
# Configuration documents

A configuration document is a tree of keys and values. Tables remember how they came into being,
because that decides whether a later line may add to them.
-/

namespace TypeRecovery

/-- How a table came into being. -/
inductive TableOrigin where
  /-- By a header of its own. -/
  | header
  /-- As a parent of a table with a header. -/
  | implied
  /-- By a dotted key. -/
  | dotted
  /-- By a literal in braces. -/
  | literal
  deriving DecidableEq, Repr

/-- A value of a configuration document. -/
inductive Toml where
  | string (text : String)
  | integer (value : Int)
  /-- A floating-point number, whose value nothing depends on. -/
  | float
  | boolean (value : Bool)
  /-- A date, a time or both, whose value nothing depends on. -/
  | dateTime
  | array (items : List Toml)
  | table (origin : TableOrigin) (entries : List (String × Toml))
  /-- Tables of one name, each opened by a header of its own. -/
  | tables (elements : List (List (String × Toml)))
  deriving Repr

namespace Toml

/-- The keys of a table and their values. -/
abbrev Entries := List (String × Toml)

/-- Act on the table at a path. Missing tables are created: by a dotted key if `dotted`, and as
implied tables otherwise. Values cannot be entered, and a dotted key cannot enter a table that has
a header or is a literal. The action learns whether the table was made by a dotted key. -/
def atPath (dotted : Bool) (action : Bool → Entries → Option Entries) :
    (madeByDots : Bool) → (path : List String) → Entries → Option Entries
  | madeByDots, [], entries => action madeByDots entries
  | _, key :: path, entries =>
    match entries.lookup key with
    | none =>
      (atPath dotted action dotted path []).map fun inner =>
        Assoc.set key (.table (if dotted then .dotted else .implied) inner) entries
    | some (.table origin inner) =>
      if origin = .literal ∨ (dotted ∧ origin = .header) then none
      else
        (atPath dotted action (origin = .dotted) path inner).map fun inner =>
          Assoc.set key (.table origin inner) entries
    | some (.tables elements) =>
      match elements.reverse with
      | [] => none
      | last :: before =>
        (atPath dotted action false path last).map fun last =>
          Assoc.set key (.tables (before.reverse ++ [last])) entries
    | some _ => none

/-- Add a key that is not there. -/
def addKey (key : String) (value : Toml) (entries : Entries) : Option Entries :=
  match entries.lookup key with
  | none => some (Assoc.set key value entries)
  | some _ => none

/-- Add a value under a dotted key. The table that gets it must be the current one, or have been
made by dotted keys as well. -/
def addDotted (path : List String) (key : String) (value : Toml) (entries : Entries) :
    Option Entries :=
  atPath true (fun madeByDots inner =>
    if madeByDots = path.isEmpty then none else addKey key value inner) false path entries

/-- Open a table under its header. An implied table may be opened once. -/
def openTable (key : String) (entries : Entries) : Option Entries :=
  match entries.lookup key with
  | none => some (Assoc.set key (.table .header []) entries)
  | some (.table .implied inner) => some (Assoc.set key (.table .header inner) entries)
  | some _ => none

/-- Open one more table of a list of tables. -/
def openElement (key : String) (entries : Entries) : Option Entries :=
  match entries.lookup key with
  | none => some (Assoc.set key (.tables [[]]) entries)
  | some (.tables elements) => some (Assoc.set key (.tables (elements ++ [[]])) entries)
  | some _ => none

end Toml

end TypeRecovery
