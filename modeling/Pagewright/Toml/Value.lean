/-!
# TOML values

The values of a TOML document, and the rules by which keys and headers may add to its tables: no key
is given twice, a table has one header at most, a table written in braces is complete, and dotted
keys do not reach into a table that has a header.
-/

namespace Pagewright

/-- How a table came to be. -/
inductive TableOrigin where
  /-- By its own header, or as the document. -/
  | header
  /-- By the header of a table inside it. -/
  | implied
  /-- By a dotted key. -/
  | dotted
  /-- In braces. -/
  | inline
deriving DecidableEq, Repr

/-- A value. -/
inductive Toml where
  | text (value : String)
  | integer (value : Int)
  /-- A number with a fraction or exponent, as it was written. -/
  | float (text : String)
  | boolean (value : Bool)
  /-- A date, a time or both, as it was written. -/
  | datetime (text : String)
  | array (items : List Toml)
  /-- The tables under a double header. -/
  | tables (items : List Toml)
  | table (origin : TableOrigin) (entries : List (String × Toml))

namespace Toml

/-- The entries of a table. -/
abbrev Entries := List (String × Toml)

/-- The key under which a date or time holds its text. -/
def datetimeKey : String := "$__toml_private_datetime"

/-- The entries of a value that can stand for a table: a table, or a date or time, whose text is its
only entry. -/
def entries? : Toml → Option Entries
  | table _ entries => some entries
  | datetime written => some [(datetimeKey, .text written)]
  | _ => none

/-- The entries with the value of a key changed or added. -/
def put (entries : Entries) (key : String) (value : Toml) : Entries :=
  if entries.any (·.1 = key) then
    entries.map fun entry => if entry.1 = key then (key, value) else entry
  else entries ++ [(key, value)]

/-- A change of a table, which may be refused. -/
abbrev Change := TableOrigin → Entries → Option (TableOrigin × Entries)

/-- Applies a change to the table at the end of a path, that of a dotted key or of a header. Missing
tables are made on the way. -/
def change (isDotted : Bool) (f : Change) : List String → Change
  | [], origin, entries => f origin entries
  | key :: path, origin, entries =>
    match entries.lookup key with
    | none => do
      let (inner, innerEntries) ← change isDotted f path (if isDotted then .dotted else .implied) []
      return (origin, put entries key (.table inner innerEntries))
    | some (.table inner innerEntries) => do
      if inner = .inline || (isDotted && inner = .header) then none
      let (inner', innerEntries') ← change isDotted f path inner innerEntries
      return (origin, put entries key (.table inner' innerEntries'))
    | some (.tables items) =>
      match items.getLast? with
      | some (.table inner innerEntries) => do
        let (inner', innerEntries') ← change isDotted f path inner innerEntries
        return (origin, put entries key (.tables (items.dropLast ++ [.table inner' innerEntries'])))
      | _ => none
    | some _ => none

/-- Adds a key with its value to a table. The table of a dotted key has to be one that dotted keys
made. -/
def addKey (path : List String) (key : String) (value : Toml) : Change :=
  change true (fun origin entries =>
    if decide (origin = .dotted) == path.isEmpty || entries.any (·.1 = key) then none
    else some (origin, entries ++ [(key, value)])) path

/-- Adds the table of a header. -/
def addTable (path : List String) (key : String) : Change :=
  change false (fun origin entries =>
    match entries.lookup key with
    | none => some (origin, put entries key (.table .header []))
    | some (.table .implied inner) => some (origin, put entries key (.table .header inner))
    | some _ => none) path

/-- Adds one more table of a double header. -/
def addArrayTable (path : List String) (key : String) : Change :=
  change false (fun origin entries =>
    match entries.lookup key with
    | none => some (origin, put entries key (.tables [.table .header []]))
    | some (.tables items) => some (origin, put entries key (.tables (items ++ [.table .header []])))
    | some _ => none) path

end Toml

end Pagewright
