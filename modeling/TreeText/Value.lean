/-!
# Values of settings

What a settings file or a variable of the environment can hold, before it is known what it is used
for. A table lists its entries in the order in which they came; no two have the same key.
-/

namespace TreeText

/-- A value that has not yet been given a type. -/
inductive Value where
  | absent
  | boolean (b : Bool)
  | integer (n : Int)
  | float (x : Float)
  | text (s : String)
  | array (elements : List Value)
  | table (entries : List (String × Value))
  deriving Inhabited

end TreeText
