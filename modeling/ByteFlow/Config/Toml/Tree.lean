/-! The tree of tables that a configuration text builds.
What a table came from decides what may be added to it later: a header opens a table once, and keys
with dots only add to tables that such keys made. -/
namespace ByteFlow.Config.Toml

/-- What a table came from. -/
inductive Origin where
  | implied
  | header
  | dotted
  | braces
  deriving DecidableEq

/-- A value; texts and fractions are told apart only from the rest. -/
inductive Value where
  | integer (n : Int)
  | boolean (b : Bool)
  | date
  | array (items : List Value)
  | other
  | table (origin : Origin) (entries : List (String × Value))
  | tables (items : List (List (String × Value)))

abbrev Entries := List (String × Value)

def put (key : String) (value : Value) : Entries → Entries
  | [] => [(key, value)]
  | e :: rest => if e.1 = key then (key, value) :: rest else e :: put key value rest

/-- Applies `f` to the newest of the tables. -/
def changeNewest (f : Entries → Option Entries) (items : List Entries) : Option (List Entries) :=
  match items.getLast? with
  | none => none
  | some newest => (f newest).map fun es => items.dropLast ++ [es]

/-- Opens the table under a path of keys; `last` says what may be done with the last key. -/
def openTable (last : String → Entries → Option Entries) : List String → Entries → Option Entries
  | [], _ => none
  | [key], entries => last key entries
  | key :: path, entries =>
    match entries.lookup key with
    | none => (openTable last path []).map fun sub => put key (.table .implied sub) entries
    | some (.table .braces _) => none
    | some (.table origin sub) =>
      (openTable last path sub).map fun sub => put key (.table origin sub) entries
    | some (.tables items) =>
      (changeNewest (openTable last path) items).map fun items => put key (.tables items) entries
    | some _ => none

/-- A header may name a table that so far was only implied. -/
def openHeader (key : String) (entries : Entries) : Option Entries :=
  match entries.lookup key with
  | none => some (put key (.table .header []) entries)
  | some (.table .implied sub) => some (put key (.table .header sub) entries)
  | some _ => none

/-- A header in double brackets adds a table to those of its name. -/
def openItem (key : String) (entries : Entries) : Option Entries :=
  match entries.lookup key with
  | none => some (put key (.tables [[]]) entries)
  | some (.tables items) => some (put key (.tables (items ++ [[]])) entries)
  | some _ => none

/-- Gives a new key a value. The keys before the last lead through tables that no header opened, or
through the newest of several; the last of these has to come from keys with dots itself, which `may`
says of the table at hand. -/
def assign (value : Value) (may : Bool) : List String → Entries → Option Entries
  | [], _ => none
  | [key], entries =>
    if may && (entries.lookup key).isNone then some (put key value entries) else none
  | key :: path, entries =>
    match entries.lookup key with
    | none => (assign value true path []).map fun sub => put key (.table .dotted sub) entries
    | some (.table .dotted sub) =>
      (assign value true path sub).map fun sub => put key (.table .dotted sub) entries
    | some (.table .implied sub) =>
      (assign value false path sub).map fun sub => put key (.table .implied sub) entries
    | some (.tables items) =>
      (changeNewest (assign value false path) items).map fun items =>
        put key (.tables items) entries
    | some _ => none

/-- Applies `f` to the table that the last header opened. -/
def atTable (f : Entries → Option Entries) : List String → Entries → Option Entries
  | [], entries => f entries
  | key :: path, entries =>
    match entries.lookup key with
    | some (.table origin sub) =>
      (atTable f path sub).map fun sub => put key (.table origin sub) entries
    | some (.tables items) =>
      (changeNewest (atTable f path) items).map fun items => put key (.tables items) entries
    | _ => none

end ByteFlow.Config.Toml
