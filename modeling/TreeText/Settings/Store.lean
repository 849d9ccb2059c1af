import TreeText.Entries
import TreeText.Settings.Key
import TreeText.Value

/-!
# Layers of settings

Settings come in layers, each a list of keys with values. The layers are laid into one table, one
after the other. A value takes the place of the one that was there before; a table is merged into
it, entry by entry, and entries whose keys differ in case only are one. What stands in the way of a
path is replaced by a table or an array.

Results:
* `Value.get_setName`: the value that was set is the one that is found.
* `Value.get_setName_of_ne`: setting a name leaves the other names alone.
-/

namespace TreeText

namespace Value

/-- The entries, if this is a table. -/
def entries : Value → List (String × Value)
  | table es => es
  | _ => []

/-- The elements, if this is an array. -/
def elements : Value → List Value
  | array vs => vs
  | _ => []

/-- The value of a name; a name that is not there has none. -/
def get (v : Value) (k : String) : Value := (v.entries.lookup k).getD absent

/-- The position that an index stands for in an array of `length` elements. -/
def position (length : Nat) (i : Int) : Nat :=
  if 0 ≤ i then i.toNat else length - i.natAbs

/-- The table with a name set; what is no table becomes one. -/
def setName (root : Value) (k : String) (v : Value) : Value := .table (setEntry k v root.entries)

/-- The array with an element set, filled up as far as needed; what is no array becomes one. -/
def setIndex (root : Value) (i : Int) (v : Value) : Value :=
  let vs := root.elements
  let p := position vs.length i
  .array ((vs ++ List.replicate (p + 1 - vs.length) absent).set p v)

/-- The element at an index. -/
def getIndex (v : Value) (i : Int) : Value :=
  (v.elements[position v.elements.length i]?).getD absent

/-- The value itself, or an empty table in place of none. -/
def orEmptyTable : Value → Value
  | absent => table []
  | v => v

mutual

/-- What becomes of `old` when a value is laid over it. -/
def merge (old : Value) : Value → Value
  | table es => mergeEntries old.orEmptyTable es
  | v => v

/-- What becomes of `old` when entries are laid over it. -/
def mergeEntries (old : Value) : List (String × Value) → Value
  | [] => old
  | (k, v) :: es =>
    let k := Settings.lowerCase k
    mergeEntries (old.setName k ((old.get k).merge v)) es

end

/-- Lays `new` over the value that a path leads to. -/
def assign (new root : Value) : List Settings.KeyStep → Value
  | [] => root
  | [.name k] => root.setName k ((root.get k).merge new)
  | [.index i] => root.setIndex i new
  | .name k :: path => root.setName k (assign new (root.get k) path)
  | .index i :: path => root.setIndex i (assign new (root.getIndex i) path)

theorem get_setName (root : Value) (k : String) (v : Value) : (root.setName k v).get k = v := by
  simp [setName, get, entries, lookup_setEntry_self]

theorem get_setName_of_ne (root : Value) {k l : String} (hne : l ≠ k) (v : Value) :
    (root.setName k v).get l = root.get l := by
  simp [setName, get, entries, lookup_setEntry_of_ne hne]

end Value

namespace Settings

/-- Keys with their values, in the order in which they are set. -/
abbrev Layer := List (String × Value)

/-- Lays the keys of a layer over a table. -/
def addLayer (root : Value) (layer : Layer) : Value :=
  layer.foldl (fun root e => Value.assign e.2 root (keyPath e.1)) root

/-- The table that layers make, the lowest one first. -/
def collect (layers : List Layer) : Value :=
  layers.foldl addLayer (.table [])

end Settings

end TreeText
