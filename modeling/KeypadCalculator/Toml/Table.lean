import KeypadCalculator.Text.Basic

/-!
The tables of a TOML document while it is read. How a table came to be decides what may still be
added to it, so that nothing is ever defined twice.
-/

namespace KeypadCalculator.Toml

/-- How a table came to be: by a header of its own, by headers of tables inside it, by dotted keys,
or as an inline table. -/
inductive Origin where
  | header
  | implied
  | dotted
  | inlined
  deriving DecidableEq

/-- Numbers with a fraction, dates, times and arrays are only known to be well formed. Of an array of
tables, only the last table can still grow, so it alone is kept. -/
inductive Value where
  | integer (n : Int)
  | text (t : Text)
  | boolean (b : Bool)
  | other
  | table (origin : Origin) (entries : List (Text × Value))
  | tables (last : List (Text × Value))

/-- The entries of a table, in the order in which they were defined. -/
abbrev Table := List (Text × Value)

namespace Table

/-- Defines or changes the value of a key, if the change is allowed. -/
def update (change : Option Value → Option Value) (key : Text) : Table → Option Table
  | [] => (change none).map fun value => [(key, value)]
  | (k, value) :: rest =>
    if k = key then (change (some value)).map fun value => (k, value) :: rest
    else (update change key rest).map ((k, value) :: ·)

/-- Defines a key that has no value yet. -/
def define (key : Text) (value : Value) : Table → Option Table :=
  update (fun | none => some value | some _ => none) key

/-- Changes the table at a path. Missing tables are created on the way, by a header or by a dotted
key. Inline tables are closed, and dotted keys do not enter a table that has a header. -/
def within (byKey : Bool) (change : Origin → Table → Option Table) :
    List Text → Origin → Table → Option Table
  | [], origin, t => change origin t
  | key :: path, _, t =>
    let enter (value : Option Value) : Option Value :=
      match value with
      | none =>
        let origin := if byKey then .dotted else .implied
        (within byKey change path origin []).map (.table origin)
      | some (.table origin entries) =>
        if origin = .inlined ∨ (byKey = true ∧ origin = .header) then none
        else (within byKey change path origin entries).map (.table origin)
      | some (.tables last) => (within byKey change path .header last).map .tables
      | some _ => none
    t.update enter key

/-- Defines a dotted key. The table it ends in must itself be one of dotted keys. -/
def assign (path : List Text) (key : Text) (value : Value) (origin : Origin) (t : Table) :
    Option Table :=
  match path with
  | [] => t.define key value
  | _ :: _ =>
    t.within true (fun origin t => if origin = .dotted then t.define key value else none) path
      origin

/-- Opens the table of a header `[path.key]`, which no earlier header may have opened. -/
def openTable (path : List Text) (key : Text) (t : Table) : Option Table :=
  let enter (value : Option Value) : Option Value :=
    match value with
    | none => some (.table .header [])
    | some (.table .implied entries) => some (.table .header entries)
    | some _ => none
  t.within false (fun _ t => t.update enter key) path .header

/-- Adds a table to the array of a header `[[path.key]]`. -/
def openTables (path : List Text) (key : Text) (t : Table) : Option Table :=
  let enter (value : Option Value) : Option Value :=
    match value with
    | none => some (.tables [])
    | some (.tables _) => some (.tables [])
    | some _ => none
  t.within false (fun _ t => t.update enter key) path .header

end Table

end KeypadCalculator.Toml
