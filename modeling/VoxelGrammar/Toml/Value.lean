/-!
The values of a TOML document. Every key of a table stands in it once.
-/

namespace VoxelGrammar.Toml

/-- How a table came to be, which decides who may still add to it. -/
inductive Origin
  /-- It has a header of its own, or is the whole document. -/
  | header
  /-- A header names it on the way to another table. -/
  | implied
  /-- A dotted key names it on the way to its last part. -/
  | dotted
  /-- It is written between braces, and complete. -/
  | inline
deriving DecidableEq

inductive Value
  | boolean (b : Bool)
  | integer (n : Int)
  | float (x : Float)
  | string (s : String)
  /-- A date, a time or both. -/
  | dateTime
  /-- An array between brackets, or the tables with one header of two brackets. -/
  | array (fromHeaders : Bool) (items : List Value)
  | table (origin : Origin) (entries : List (String × Value))

abbrev Entries := List (String × Value)

namespace Entries

def get? (es : Entries) (key : String) : Option Value := es.lookup key

/-- Sets the value of a key, in place if there is one. -/
def put (key : String) (v : Value) : Entries → Entries
  | [] => [(key, v)]
  | (k, w) :: es => if k = key then (key, v) :: es else (k, w) :: put key v es

/-- Adds a key that is not there yet. -/
def add? (key : String) (v : Value) (es : Entries) : Option Entries :=
  if (es.get? key).isSome then none else some (es.put key v)

/-- Applies `f` to the table at the end of a path and makes the tables on the way that are not
there. In an array of tables the way leads to the last one. Nothing is added to a table between
braces, and a dotted key passes through no table that has a header. -/
def updateAt (dotted : Bool) (f : Origin → Entries → Option Entries) :
    List String → Origin → Entries → Option Entries
  | [], origin, es => f origin es
  | key :: path, _, es =>
    match es.get? key with
    | none => do
      let made := if dotted then .dotted else .implied
      return es.put key (.table made (← updateAt dotted f path made []))
    | some (.table origin inner) => do
      guard (origin ≠ .inline ∧ (dotted → origin ≠ .header))
      return es.put key (.table origin (← updateAt dotted f path origin inner))
    | some (.array true items) => do
      let .table origin inner ← items.getLast? | none
      let last := .table origin (← updateAt dotted f path origin inner)
      return es.put key (.array true (items.dropLast ++ [last]))
    | some _ => none

/-- Sets a dotted key, given as the parts before the last one and the last one. -/
def assign (path : List String) (key : String) (v : Value) : Origin → Entries → Option Entries :=
  updateAt true (fun origin es => do
    guard (path.isEmpty ∨ origin = .dotted)
    es.add? key v) path

/-- Opens the table of a header. -/
def openTable (path : List String) (key : String) (es : Entries) : Option Entries :=
  updateAt false (fun _ es =>
    match es.get? key with
    | none => some (es.put key (.table .header []))
    | some (.table .implied inner) => some (es.put key (.table .header inner))
    | some _ => none) path .header es

/-- Adds a table to the array of tables of a header with two brackets. -/
def openElement (path : List String) (key : String) (es : Entries) : Option Entries :=
  updateAt false (fun _ es =>
    match es.get? key with
    | none => some (es.put key (.array true [.table .header []]))
    | some (.array true items) => some (es.put key (.array true (items ++ [.table .header []])))
    | some _ => none) path .header es

end Entries

end VoxelGrammar.Toml
