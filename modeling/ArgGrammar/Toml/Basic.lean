import ArgGrammar.Number.Binary64
import ArgGrammar.OrderedMap

/-!
# TOML values and the tables of a document

A document is a list of statements: headers, and assignments to keys that may have several parts.
Tables remember how they came about, since that decides what may still be added to them.

- `Toml`: a value.
- `Toml.legible`: whether every numeral in a value denotes a number.
- `Toml.Statement`: a header or an assignment.
- `Toml.declare`, `Toml.declareItem`, `Toml.assign`: what statements do to the tables.
- `Toml.ofStatements?`: the table that a document describes.
-/

namespace ArgGrammar

/-- How a table of a document came about. -/
inductive TableOrigin where
  /-- It has a header of its own. -/
  | header
  /-- It stands inside a longer header. -/
  | path
  /-- It stands inside a key of several parts. -/
  | dotted
  /-- It was written in braces, and is closed. -/
  | inline
  deriving DecidableEq, Repr

/-- A TOML value. -/
inductive Toml where
  | str (s : String)
  | int (z : Int)
  | float (x : Binary64)
  /-- A numeral without digits or beyond the numbers at hand. It does no harm where nobody asks for
  its number. -/
  | illegible (text : String)
  | bool (b : Bool)
  /-- A date, a time, or both, as it was written. -/
  | moment (text : String)
  | arr (items : List Toml)
  | table (origin : TableOrigin) (entries : List (String × Toml))
  /-- The tables of a repeated header. -/
  | tables (items : List (List (String × Toml)))

namespace Toml

mutual

/-- Whether every numeral in a value denotes a number. -/
def legible : Toml → Bool
  | .illegible _ => false
  | .arr items => legibleItems items
  | .table _ entries => legibleEntries entries
  | .tables items => legibleTables items
  | .str _ => true
  | .int _ => true
  | .float _ => true
  | .bool _ => true
  | .moment _ => true

/-- Whether every numeral in the items of a list denotes a number. -/
def legibleItems : List Toml → Bool
  | [] => true
  | v :: rest => legible v && legibleItems rest

/-- Whether every numeral in the entries of a table denotes a number. -/
def legibleEntries : List (String × Toml) → Bool
  | [] => true
  | (_, v) :: rest => legible v && legibleEntries rest

/-- Whether every numeral in a list of tables denotes a number. -/
def legibleTables : List (List (String × Toml)) → Bool
  | [] => true
  | entries :: rest => legibleEntries entries && legibleTables rest

end

/-- The entries of a table. -/
abbrev Entries := OrderedMap String Toml

/-- A statement of a document. -/
inductive Statement where
  /-- A table header. -/
  | header (key : List String)
  /-- A header that adds a table to a list of them. -/
  | item (key : List String)
  /-- An assignment. -/
  | assign (key : List String) (value : Toml)

/-- Changes the last table of a list of tables. -/
def updateLast (f : Entries → Option Entries) : List Entries → Option (List Entries)
  | [] => none
  | [es] => (f es).map ([·])
  | es :: rest => (updateLast f rest).map (es :: ·)

/-- Changes the table under a key; a list of tables stands for its last one. -/
def updateUnder (k : String) (f : Entries → Option Entries) (es : Entries) : Option Entries :=
  match es.get? k with
  | some (.table .inline _) => none
  | some (.table origin inner) => (f inner).map fun inner => es.insert k (.table origin inner)
  | some (.tables items) => (updateLast f items).map fun items => es.insert k (.tables items)
  | _ => none

/-- Goes along the parts of a header, adding the tables that are missing, and changes the table in
front of the last part. -/
def along (f : String → Entries → Option Entries) : List String → Entries → Option Entries
  | [], _ => none
  | [k], es => f k es
  | k :: ks, es =>
    match es.get? k with
    | none => (along f ks []).map fun inner => es.insert k (.table .path inner)
    | some _ => updateUnder k (along f ks) es

/-- Declares the table of a header. A table can be declared once. -/
def declare (key : List String) : Entries → Option Entries :=
  along
    (fun k es =>
      match es.get? k with
      | none => some (es.insert k (.table .header []))
      | some (.table .path inner) => some (es.insert k (.table .header inner))
      | _ => none)
    key

/-- Adds a table to the list of tables of a repeated header. -/
def declareItem (key : List String) : Entries → Option Entries :=
  along
    (fun k es =>
      match es.get? k with
      | none => some (es.insert k (.tables [[]]))
      | some (.tables items) => some (es.insert k (.tables (items ++ [[]])))
      | _ => none)
    key

/-- Sets a key of one or more parts in a table; `own` tells whether the table takes keys itself. One
that only stands inside a header, and the last of a list of tables, are there to be gone through,
and no key can be set twice. -/
def setIn (own : Bool) : List String → Toml → Entries → Option Entries
  | [], _, _ => none
  | [k], v, es =>
    match own, es.get? k with
    | true, none => some (es.insert k v)
    | _, _ => none
  | k :: ks, v, es =>
    match es.get? k with
    | none => (setIn true ks v []).map fun inner => es.insert k (.table .dotted inner)
    | some (.table .dotted inner) =>
      (setIn true ks v inner).map fun inner => es.insert k (.table .dotted inner)
    | some (.table .path inner) =>
      (setIn false ks v inner).map fun inner => es.insert k (.table .path inner)
    | some (.tables items) =>
      (updateLast (setIn false ks v) items).map fun items => es.insert k (.tables items)
    | _ => none

/-- Sets a key of one or more parts in the table at hand. A table with a header of its own takes no
parts of longer keys. -/
def set (key : List String) (v : Toml) (es : Entries) : Option Entries := setIn true key v es

/-- Sets a key inside the table of a header. -/
def assign : List String → List String → Toml → Entries → Option Entries
  | [], key, v, es => set key v es
  | k :: ks, key, v, es => updateUnder k (assign ks key v) es

/-- The entries after a list of statements; `under` is the header that holds. -/
def applyStatements : List Statement → List String → Entries → Option Entries
  | [], _, es => some es
  | .header key :: rest, _, es => (declare key es).bind (applyStatements rest key)
  | .item key :: rest, _, es => (declareItem key es).bind (applyStatements rest key)
  | .assign key v :: rest, under, es =>
    (assign under key v es).bind (applyStatements rest under)

/-- The table that a document describes, if its statements agree with one another. -/
def ofStatements? (statements : List Statement) : Option Entries :=
  applyStatements statements [] []

end Toml

end ArgGrammar
