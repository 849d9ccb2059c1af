import TreeText.Entries
import TreeText.Toml.Date
import TreeText.Value

/-!
# Building tables

The lines of a document build up a table. A table can be made by a header of its own, by a header
that only passes through it, by a dotted key, or by braces; what may still be added to it depends on
that. A header makes a table only once, but it may come after a header that passes through. A dotted
key adds nothing to a table that has a header, and nothing is added to a table in braces. No key is
given twice.

A finished table is a value, but one whose first key is reserved for dates stands for a date, which
must be a string under that key.
-/

namespace TreeText.Toml

/-- What has made a table. -/
inductive Origin where
  /-- A header, or an element of a list of tables. -/
  | header
  /-- A header of a table below it. -/
  | passed
  /-- A dotted key. -/
  | dotted
  /-- Braces. -/
  | braces
  deriving DecidableEq, Repr

/-- What a key of a table leads to: a value without parts, a date or time, an array, a table, or a
list of tables, the last one first. -/
inductive Item where
  | value (v : Value)
  | date (s : String)
  | array (elements : List Item)
  | table (origin : Origin) (entries : List (String × Item))
  | tables (elements : List (List (String × Item)))

/-- The entries of a table, in order. -/
abbrev Entries := List (String × Item)

namespace Entries

/-- Changes the entries of the table that the keys of a path lead to. Tables that are missing on the
way are made, and a list of tables stands for its last one. No path enters a table in braces, and a
dotted path no table that has a header. -/
def modifyAt (dotted : Bool) (f : Origin → Entries → Option Entries) (origin : Origin)
    (es : Entries) : List String → Option Entries
  | [] => f origin es
  | k :: path =>
    match es.lookup k with
    | none =>
      let made := if dotted then .dotted else .passed
      (modifyAt dotted f made [] path).map fun inner => setEntry k (.table made inner) es
    | some (.table o inner) =>
      if o = .braces || dotted && o = .header then none
      else (modifyAt dotted f o inner path).map fun inner => setEntry k (.table o inner) es
    | some (.tables []) => none
    | some (.tables (last :: older)) =>
      (modifyAt dotted f .header last path).map fun last => setEntry k (.tables (last :: older)) es
    | some _ => none

/-- Adds an item under a dotted key to a table. The last key goes into a table that dotted keys have
made if there are keys before it, and else into one that they have not. -/
def addValue (es : Entries) (path : List String) (key : String) (item : Item) : Option Entries :=
  modifyAt true
    (fun origin es =>
      if (origin == .dotted) == path.isEmpty || (es.lookup key).isSome then none
      else some (es ++ [(key, item)]))
    .header es path

/-- Makes the table of a header. If other headers have passed through it, it takes a new place
behind the entries that are there. -/
def addTable (es : Entries) (path : List String) (key : String) : Option Entries :=
  modifyAt false
    (fun _ es =>
      match es.lookup key with
      | none => some (setEntry key (.table .header []) es)
      | some (.table .passed inner) =>
        some (es.filter (fun e => e.1 ≠ key) ++ [(key, .table .header inner)])
      | some _ => none)
    .header es path

/-- Adds an element to a list of tables. -/
def addElement (es : Entries) (path : List String) (key : String) : Option Entries :=
  modifyAt false
    (fun _ es =>
      match es.lookup key with
      | none => some (setEntry key (.tables [[]]) es)
      | some (.tables ts) => some (setEntry key (.tables ([] :: ts)) es)
      | some _ => none)
    .header es path

/-- Adds an item below the table of a header. -/
def addValueBelow (es : Entries) (header path : List String) (key : String) (item : Item) :
    Option Entries :=
  modifyAt false (fun _ es => es.addValue path key item) .header es header

/-- The entries that items under dotted keys make, or nothing if two of them do not go together. -/
def ofPairs? (pairs : List ((List String × String) × Item)) : Option Entries :=
  pairs.foldlM (fun es p => addValue es p.1.1 p.1.2 p.2) []

end Entries

/-! ## Finished tables -/

/-- The key that is reserved for dates. -/
def dateKey : String := "$__toml_private_datetime"

/-- The date or time that an item under the reserved key stands for: it must be a string that holds
one. -/
def Item.markedDate? : Item → Option Value
  | .value (.text s) =>
    match dateTime s.toList with
    | some (_, []) => some (.text s)
    | _ => none
  | _ => none

mutual

/-- The value that an item has become, or nothing if a date in it is malformed. -/
def Item.toValue? : Item → Option Value
  | .value v => some v
  | .date s => some (.text s)
  | .array items => (itemValues? items).map .array
  | .table _ entries => tableValue? entries
  | .tables elements => (elementValues? elements).map fun vs => .array vs.reverse

/-- The value that a table has become. With the reserved key in front, no other key counts. -/
def tableValue? : List (String × Item) → Option Value
  | [] => some (.table [])
  | (k, item) :: es =>
    if k = dateKey then item.markedDate?
    else do
      let v ← item.toValue?
      let vs ← entryValues? es
      some (.table ((k, v) :: vs))

/-- The entries of a finished table. -/
def entryValues? : List (String × Item) → Option (List (String × Value))
  | [] => some []
  | (k, item) :: es => do
    let v ← item.toValue?
    let vs ← entryValues? es
    some ((k, v) :: vs)

/-- The elements of a finished array. -/
def itemValues? : List Item → Option (List Value)
  | [] => some []
  | item :: items => do
    let v ← item.toValue?
    let vs ← itemValues? items
    some (v :: vs)

/-- The tables of a finished list. -/
def elementValues? : List (List (String × Item)) → Option (List Value)
  | [] => some []
  | es :: rest => do
    let v ← tableValue? es
    let vs ← elementValues? rest
    some (v :: vs)

end

end TreeText.Toml
